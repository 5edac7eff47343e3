import Mathlib.Tactic.Ring
import Morphology.Proofs.Transducer.Reading

/-!
# What traversals find

A traversal is followed step by step.  What is still to be reported is on its way: among the values
of the frame being reported, behind a frame on the stack, or at a start not reached yet.  As long as
no search for a match is given up, everything on its way is reported in the end.

## Main definitions

* `Traversal.Step` — one step of a traversal
* `Traversal.Waits` — a match is still to be reported
* `Transducer.completes` — no search for a match is given up

## Main statements

* `Traversal.Waits.step` — what waits is reported by a step or waits behind it
* `Traversal.Valid.cost_step` — every report spends some of what a traversal may cost
* `Transducer.exists_mem_matchesOf` — all that is visited is found
* `Transducer.found_of_mem_matchesOf` — all that is found is visited
-/

namespace Morphology

universe u

open Transducer (Visits Reads Fits rank)

namespace Traversal

variable {α : Type u} {t : Transducer α} {tr tr' tr₁ : Traversal}

/-! ## Steps -/

/-- The values of the current frame that are not reported yet. -/
def pendingValues (tr : Traversal) : List Nat :=
  match tr.pending with
  | some (_, vs) => vs
  | none => []

/-- Whether a match may begin at a further place. -/
def mayBegin (tr : Traversal) : Bool :=
  tr.nextStart < tr.startLimit && tr.nextStart ≤ tr.input.length

/-- Whether nothing is left to be visited or reported. -/
def isOver (tr : Traversal) : Bool :=
  tr.pendingValues.isEmpty && tr.stack.isEmpty && !tr.mayBegin

/-- The match of a frame with one of its values. -/
def matchOf (f : Frame) (v : Nat) : KeyMatch :=
  ⟨f.start, f.pos, v, f.segment, f.edits⟩

/-- One step of a traversal, with the match that it reports, if any. -/
inductive Step (t : Transducer α) (tr : Traversal) : Option KeyMatch → Traversal → Prop
  /-- A match that is seen again is passed over. -/
  | skip {f : Frame} {v : Nat} {vs : List Nat} (hpending : tr.pending = some (f, v :: vs))
      (hseen : (f.pos, v, f.segment) ∈ tr.seen) :
      Step t tr none { tr with pending := some (f, vs) }
  | report {f : Frame} {v : Nat} {vs : List Nat} (hpending : tr.pending = some (f, v :: vs))
      (hnew : (f.pos, v, f.segment) ∉ tr.seen) :
      Step t tr (some (matchOf f v))
        { tr with pending := some (f, vs), seen := (f.pos, v, f.segment) :: tr.seen }
  | visit {f : Frame} {rest : List Frame} (hpending : tr.pendingValues = [])
      (hstack : tr.stack = f :: rest) :
      Step t tr none
        { tr with
          stack := t.successors tr.input tr.maxEdits f ++ rest
          pending := if f.node.values.isEmpty then none else some (f, f.node.values) }
  | begin (hpending : tr.pendingValues = []) (hstack : tr.stack = []) (hbegin : tr.mayBegin = true) :
      Step t tr none
        { tr with
          stack := [.root t.root tr.nextStart]
          pending := none
          seen := []
          nextStart := tr.nextStart + 1 }

/-- Steps without a report. -/
def Silent (t : Transducer α) : Traversal → Traversal → Prop :=
  Relation.ReflTransGen fun a b => Step t a none b

private theorem next_skip (limit : Nat) {f : Frame} {v : Nat} {vs : List Nat}
    (hpending : tr.pending = some (f, v :: vs)) (hseen : (f.pos, v, f.segment) ∈ tr.seen) :
    t.next (limit + 1) tr = t.next limit { tr with pending := some (f, vs) } := by
  simp [Transducer.next, hpending, hseen]

private theorem next_report (limit : Nat) {f : Frame} {v : Nat} {vs : List Nat}
    (hpending : tr.pending = some (f, v :: vs)) (hnew : (f.pos, v, f.segment) ∉ tr.seen) :
    t.next (limit + 1) tr = (some (matchOf f v),
      { tr with pending := some (f, vs), seen := (f.pos, v, f.segment) :: tr.seen }) := by
  simp [Transducer.next, hpending, hnew, matchOf]

private theorem next_visit (limit : Nat) {f : Frame} {rest : List Frame}
    (hpending : tr.pendingValues = []) (hstack : tr.stack = f :: rest) :
    t.next (limit + 1) tr = t.next limit
      { tr with
        stack := t.successors tr.input tr.maxEdits f ++ rest
        pending := if f.node.values.isEmpty then none else some (f, f.node.values) } := by
  rcases h : tr.pending with _ | ⟨f', _ | ⟨v, vs⟩⟩
  · simp only [Transducer.next, h, hstack]
  · simp only [Transducer.next, h, hstack]
  · simp [pendingValues, h] at hpending

private theorem next_begin (limit : Nat) (hpending : tr.pendingValues = [])
    (hstack : tr.stack = []) (hbegin : tr.mayBegin = true) :
    t.next (limit + 1) tr = t.next limit
      { tr with
        stack := [.root t.root tr.nextStart]
        pending := none
        seen := []
        nextStart := tr.nextStart + 1 } := by
  unfold mayBegin at hbegin
  rcases h : tr.pending with _ | ⟨f', _ | ⟨v, vs⟩⟩
  · simp only [Transducer.next, h, hstack, if_pos hbegin]
  · simp only [Transducer.next, h, hstack, if_pos hbegin]
  · simp [pendingValues, h] at hpending

private theorem next_over (limit : Nat) (hpending : tr.pendingValues = [])
    (hstack : tr.stack = []) (hbegin : ¬ tr.mayBegin = true) :
    t.next (limit + 1) tr = (none, { tr with pending := none }) := by
  unfold mayBegin at hbegin
  rcases h : tr.pending with _ | ⟨f', _ | ⟨v, vs⟩⟩
  · simp only [Transducer.next, h, hstack, if_neg hbegin]
  · simp only [Transducer.next, h, hstack, if_neg hbegin]
  · simp [pendingValues, h] at hpending

/-- `next` begins with a step, which reports a match or not, or nothing is left. -/
theorem next_succ_cases (t : Transducer α) (limit : Nat) (tr : Traversal) :
    (∃ m tr', Step t tr (some m) tr' ∧ t.next (limit + 1) tr = (some m, tr')) ∨
      (∃ tr', Step t tr none tr' ∧ t.next (limit + 1) tr = t.next limit tr') ∨
      tr.isOver = true ∧ ∃ tr', tr'.isOver = true ∧ t.next (limit + 1) tr = (none, tr') := by
  -- Pending values come first, then the frames of the stack, then the next start.
  by_cases hpending : tr.pendingValues = []
  · cases hstack : tr.stack with
    | cons f rest =>
      exact .inr (.inl ⟨_, .visit hpending hstack, next_visit limit hpending hstack⟩)
    | nil =>
      by_cases hbegin : tr.mayBegin = true
      · exact .inr (.inl ⟨_, .begin hpending hstack hbegin, next_begin limit hpending hstack hbegin⟩)
      · refine .inr (.inr ⟨?_, _, ?_, next_over limit hpending hstack hbegin⟩)
        · simp [isOver, hpending, hstack, hbegin]
        · simp only [Bool.not_eq_true, mayBegin] at hbegin
          simp [isOver, pendingValues, hstack, mayBegin, hbegin]
  · -- A value is pending, and it was seen before or not.
    obtain ⟨f, v, vs, hpending⟩ : ∃ f v vs, tr.pending = some (f, v :: vs) := by
      rcases h : tr.pending with _ | ⟨f, _ | ⟨v, vs⟩⟩
      · simp [pendingValues, h] at hpending
      · simp [pendingValues, h] at hpending
      · exact ⟨f, v, vs, rfl⟩
    by_cases hseen : (f.pos, v, f.segment) ∈ tr.seen
    · exact .inr (.inl ⟨_, .skip hpending hseen, next_skip limit hpending hseen⟩)
    · exact .inl ⟨_, _, .report hpending hseen, next_report limit hpending hseen⟩

/-- A search for a match makes a silent step and goes on. -/
theorem Step.next_of_silent (h : Step t tr none tr') (limit : Nat) :
    t.next (limit + 1) tr = t.next limit tr' := by
  cases h with
  | skip hpending hseen => exact next_skip limit hpending hseen
  | visit hpending hstack => exact next_visit limit hpending hstack
  | begin hpending hstack hbegin => exact next_begin limit hpending hstack hbegin

/-- A search for a match ends with a report. -/
theorem Step.next_of_report {m : KeyMatch} (h : Step t tr (some m) tr') (limit : Nat) :
    t.next (limit + 1) tr = (some m, tr') := by
  cases h with
  | report hpending hnew => exact next_report limit hpending hnew

/-- A search for a match ends where nothing is left. -/
theorem next_of_isOver (h : tr.isOver = true) (limit : Nat) :
    t.next (limit + 1) tr = (none, { tr with pending := none }) := by
  simp only [isOver, Bool.and_eq_true, List.isEmpty_iff, Bool.not_eq_true'] at h
  exact next_over limit h.1.1 h.1.2 (Bool.not_eq_true _ ▸ h.2)

/-- The search for a match makes silent steps until one reports a match, nothing is left, or the
search is given up. -/
theorem exists_silent_next (t : Transducer α) (limit : Nat) (tr : Traversal) :
    ∃ tr₁, Silent t tr tr₁ ∧
      ((∃ m, (t.next limit tr).1 = some m ∧ Step t tr₁ (some m) (t.next limit tr).2) ∨
        (t.next limit tr).1 = none ∧
          ((t.next limit tr).2.isOver = true → tr₁.isOver = true)) := by
  induction limit generalizing tr with
  | zero => exact ⟨tr, .refl, .inr ⟨rfl, id⟩⟩
  | succ limit ih =>
    rcases next_succ_cases t limit tr with
      ⟨m, tr', hstep, heq⟩ | ⟨tr', hstep, heq⟩ | ⟨hover, tr', -, heq⟩ <;> rw [heq]
    · exact ⟨tr, .refl, .inl ⟨m, rfl, hstep⟩⟩
    · obtain ⟨tr₁, hsilent, hnext⟩ := ih tr'
      exact ⟨tr₁, .head hstep hsilent, hnext⟩
    · exact ⟨tr, .refl, .inr ⟨rfl, fun _ => hover⟩⟩

/-! ## What a traversal is on the way to -/

/-- A frame is visited from the place where its match begins. -/
structure Comes (t : Transducer α) (tr : Traversal) (first : Nat) (f : Frame) : Prop where
  first : first ≤ f.start
  limit : f.start < tr.startLimit
  length : f.start ≤ tr.input.length
  visits : Visits t tr.input tr.maxEdits (.root t.root f.start) f

theorem Comes.root {first : Nat} (hfirst : first ≤ tr.nextStart) (hbegin : tr.mayBegin = true) :
    Comes t tr first (.root t.root tr.nextStart) := by
  simp only [mayBegin, Bool.and_eq_true, decide_eq_true_eq] at hbegin
  exact ⟨hfirst, hbegin.1, hbegin.2, .refl⟩

theorem Comes.reads {first : Nat} {f f' : Frame} (h : Comes t tr first f)
    (hread : Reads t tr.input tr.maxEdits f f') : Comes t tr first f' := by
  have hstart := hread.start_eq
  exact ⟨hstart ▸ h.first, hstart ▸ h.limit, hstart ▸ h.length, hstart ▸ h.visits.tail hread⟩

theorem Comes.fits {first : Nat} {f : Frame} (h : Comes t tr first f) : Fits t f :=
  h.visits.keeps (fun _ _ hf hread => hf.reads hread) (Transducer.fits_root t f.start)

/-- All frames of a traversal are visited from the last start. -/
structure Valid (t : Transducer α) (first : Nat) (tr : Traversal) : Prop where
  nextStart : first ≤ tr.nextStart
  stack : ∀ f ∈ tr.stack, f.start + 1 = tr.nextStart ∧ Comes t tr first f
  pending : ∀ f vs, tr.pending = some (f, vs) →
    f.start + 1 = tr.nextStart ∧ Comes t tr first f ∧ vs.Sublist f.node.values

/-- A step keeps the text, the number of edits and the range of starts. -/
theorem Step.same {m : Option KeyMatch} (h : Step t tr m tr') :
    tr'.input = tr.input ∧ tr'.maxEdits = tr.maxEdits ∧ tr'.startLimit = tr.startLimit := by
  cases h with
  | skip | report | visit | begin => exact ⟨rfl, rfl, rfl⟩

/-- Where a frame comes from does not change with a step. -/
theorem Comes.step {first : Nat} {m : Option KeyMatch} {f : Frame} (hc : Comes t tr first f)
    (h : Step t tr m tr') : Comes t tr' first f := by
  obtain ⟨hinput, hedits, hlimit⟩ := h.same
  exact ⟨hc.first, hlimit ▸ hc.limit, hinput ▸ hc.length, hinput ▸ hedits ▸ hc.visits⟩

theorem Valid.step {first : Nat} {m : Option KeyMatch} (hv : Valid t first tr)
    (h : Step t tr m tr') : Valid t first tr' := by
  have hkeeps (f : Frame) (hc : Comes t tr first f) : Comes t tr' first f := hc.step h
  cases h with
  | skip hpending _ | report hpending _ =>
    obtain ⟨hstart, hcomes, hsub⟩ := hv.pending _ _ hpending
    refine ⟨hv.nextStart, fun f hf => ?_, ?_⟩
    · obtain ⟨hs, hc⟩ := hv.stack f hf
      exact ⟨hs, hkeeps f hc⟩
    · -- What is pending is the rest of what was.
      rintro f' vs' heq
      obtain ⟨rfl, rfl⟩ := Prod.mk.inj (Option.some.inj heq)
      exact ⟨hstart, hkeeps _ hcomes, (List.sublist_cons_self ..).trans hsub⟩
  | @visit f rest _ hstack =>
    obtain ⟨hs, hc⟩ := hv.stack f (by simp [hstack])
    -- The successors of the frame visited come from the same start.
    refine ⟨hv.nextStart, fun f' hf' => ?_, fun f' vs heq => ?_⟩
    · rcases List.mem_append.1 hf' with hf' | hf'
      · have hread := Transducer.mem_successors_iff.1 hf'
        exact ⟨hread.start_eq ▸ hs, hkeeps f' (hc.reads hread)⟩
      · obtain ⟨hs', hc'⟩ := hv.stack f' (by simp [hstack, hf'])
        exact ⟨hs', hkeeps f' hc'⟩
    · -- The values of the frame, if it has any, are pending now.
      dsimp only at heq
      split at heq
      · exact absurd heq (by simp)
      · obtain ⟨rfl, rfl⟩ := Prod.mk.inj (Option.some.inj heq)
        exact ⟨hs, hkeeps _ hc, List.Sublist.refl _⟩
  -- The next start puts its root on an empty stack.
  | begin _ _ hbegin =>
    refine ⟨Nat.le_succ_of_le hv.nextStart, fun f hf => ?_, fun f vs heq => ?_⟩
    · obtain rfl := List.mem_singleton.1 hf
      exact ⟨rfl, hkeeps _ (.root hv.nextStart hbegin)⟩
    · exact absurd heq (by simp)

/-- A frame with a value waits to be reported: it is being reported, the traversal comes to it from
the stack, or its match begins at a place that is not reached yet. -/
inductive Waits (t : Transducer α) (tr : Traversal) (f : Frame) (v : Nat) : Prop
  | pending {vs : List Nat} (hnew : (f.pos, v, f.segment) ∉ tr.seen)
      (hpending : tr.pending = some (f, vs)) (hv : v ∈ vs)
  | stacked {f₀ : Frame} (hnew : (f.pos, v, f.segment) ∉ tr.seen) (hmem : f₀ ∈ tr.stack)
      (hvisits : Visits t tr.input tr.maxEdits f₀ f) (hv : v ∈ f.node.values)
  | ahead {start : Nat} (hnext : tr.nextStart ≤ start) (hlimit : start < tr.startLimit)
      (hlength : start ≤ tr.input.length)
      (hvisits : Visits t tr.input tr.maxEdits (.root t.root start) f) (hv : v ∈ f.node.values)

/-- A match reports a frame with a value; corrections that differ do not matter. -/
structure Reports (m : KeyMatch) (f : Frame) (v : Nat) : Prop where
  start : m.start = f.start
  stop : m.stop = f.pos
  value : m.value = v
  segment : m.segment = f.segment

variable {f : Frame} {v : Nat}

theorem not_waits_of_isOver (hover : tr.isOver = true) : ¬ Waits t tr f v := by
  simp only [isOver, mayBegin, Bool.and_eq_true, List.isEmpty_iff, Bool.not_eq_true',
    Bool.and_eq_false_iff, decide_eq_false_iff_not] at hover
  obtain ⟨⟨hpending, hstack⟩, hbegin⟩ := hover
  intro h
  cases h with
  | pending _ heq hv =>
    simp only [pendingValues, heq] at hpending
    simp [hpending] at hv
  | stacked _ hmem _ _ => simp [hstack] at hmem
  | ahead hnext hlimit hlength _ _ => omega

/-- What `Waits` is reported by a step or waits behind it. -/
theorem Waits.step {first : Nat} {m : Option KeyMatch} (hw : Waits t tr f v)
    (hvalid : Valid t first tr) (h : Step t tr m tr') :
    (∃ m', m = some m' ∧ Reports m' f v) ∨ Waits t tr' f v := by
  cases h with
  | @skip g w ws hpending hseen =>
    right
    cases hw with
    | @pending vs hnew heq hv =>
      obtain ⟨rfl, rfl⟩ := Prod.mk.inj (Option.some.inj (hpending.symm.trans heq))
      -- The value passed over was seen, and the one that waits was not.
      rcases List.mem_cons.1 hv with rfl | hv
      · exact absurd hseen hnew
      · exact .pending hnew rfl hv
    | stacked hnew hmem hvisits hv => exact .stacked hnew hmem hvisits hv
    | ahead hnext hlimit hlength hvisits hv => exact .ahead hnext hlimit hlength hvisits hv
  | @report g w ws hpending hnew' =>
    obtain ⟨hstart, -⟩ := hvalid.pending _ _ hpending
    by_cases hsame : (f.pos, v, f.segment) = (g.pos, w, g.segment) ∧ f.start = g.start
    · obtain ⟨hkey, hstart'⟩ := hsame
      obtain ⟨hpos, hkey⟩ := Prod.mk.inj hkey
      obtain ⟨hvalue, hsegment⟩ := Prod.mk.inj hkey
      exact .inl ⟨_, rfl, hstart'.symm, hpos.symm, hvalue.symm, hsegment.symm⟩
    · right
      -- All frames that wait with the last start agree in it, so their keys differ.
      have hfresh (hnew : (f.pos, v, f.segment) ∉ tr.seen) (hf : f.start + 1 = tr.nextStart) :
          (f.pos, v, f.segment) ∉ (g.pos, w, g.segment) :: tr.seen := by
        intro hmem
        rcases List.mem_cons.1 hmem with heq | hmem
        · exact hsame ⟨heq, by omega⟩
        · exact hnew hmem
      -- What was not reported waits as before, with one more match seen.
      cases hw with
      | @pending vs hnew heq hv =>
        obtain ⟨rfl, rfl⟩ := Prod.mk.inj (Option.some.inj (hpending.symm.trans heq))
        have hnew₁ := hfresh hnew hstart
        rcases List.mem_cons.1 hv with rfl | hv
        · exact absurd (List.mem_cons_self ..) hnew₁
        · exact .pending hnew₁ rfl hv
      | stacked hnew hmem hvisits hv =>
        have hs := (hvalid.stack _ hmem).1
        exact .stacked (hfresh hnew (by rw [hvisits.start_eq, hs])) hmem hvisits hv
      | ahead hnext hlimit hlength hvisits hv => exact .ahead hnext hlimit hlength hvisits hv
  | @visit g rest hidle hstack =>
    right
    cases hw with
    -- No value was pending when the frame was visited.
    | pending _ heq hv =>
      simp only [pendingValues, heq] at hidle
      simp [hidle] at hv
    | @stacked f₀ hnew hmem hvisits hv =>
      rw [hstack] at hmem
      rcases List.mem_cons.1 hmem with rfl | hmem
      · -- The frame visited has the value itself, or leads to it.
        rcases Relation.ReflTransGen.cases_head hvisits with rfl | ⟨f₁, hread, hvisits⟩
        · have hne : f₀.node.values.isEmpty = false := by
            rw [List.isEmpty_eq_false_iff]
            exact List.ne_nil_of_mem hv
          exact .pending hnew (if_neg (by simp [hne])) hv
        · exact .stacked hnew
            (List.mem_append_left _ (Transducer.mem_successors_iff.2 hread)) hvisits hv
      · exact .stacked hnew (List.mem_append_right _ hmem) hvisits hv
    | ahead hnext hlimit hlength hvisits hv => exact .ahead hnext hlimit hlength hvisits hv
  | begin hidle hstack hbegin =>
    right
    cases hw with
    | pending _ heq hv =>
      simp only [pendingValues, heq] at hidle
      simp [hidle] at hv
    | stacked _ hmem _ _ => simp [hstack] at hmem
    | @ahead start hnext hlimit hlength hvisits hv =>
      -- The start is the next one, or lies further on.
      by_cases heq : start = tr.nextStart
      · subst heq
        exact .stacked List.not_mem_nil (List.mem_singleton_self _) hvisits hv
      · exact .ahead (by dsimp only; omega) hlimit hlength hvisits hv

/-- Silent steps keep what waits. -/
theorem Waits.silent {first : Nat} (hw : Waits t tr f v) (hvalid : Valid t first tr)
    (h : Silent t tr tr₁) : Waits t tr₁ f v := by
  suffices hboth : Valid t first tr₁ ∧ Waits t tr₁ f v from hboth.2
  induction h with
  | refl => exact ⟨hvalid, hw⟩
  | tail _ hstep ih =>
    refine ⟨ih.1.step hstep, ?_⟩
    rcases ih.2.step ih.1 hstep with ⟨m, hm, -⟩ | hw
    · exact absurd hm (by simp)
    · exact hw

/-! ## What a traversal may cost -/

/-- The number of starts that are not tried yet. -/
def startsLeft (tr : Traversal) : Nat :=
  min tr.startLimit (tr.input.length + 1) - tr.nextStart

/-- A bound for the matches that a traversal has still to report. -/
def cost (t : Transducer α) (tr : Traversal) : Nat :=
  tr.pendingValues.length +
    t.root.weight * ((tr.stack.map (t.potential tr.input tr.maxEdits)).sum +
      tr.startsLeft * t.branching ^ (t.root.height + min tr.maxEdits tr.input.length + 1))

theorem potential_root_le (t : Transducer α) (input : List Char) (maxEdits start : Nat) :
    t.potential input maxEdits (.root t.root start) ≤
      t.branching ^ (t.root.height + min maxEdits input.length + 1) := by
  apply Nat.pow_le_pow_right
  · simp [Transducer.branching]
  · simp only [rank, Frame.root, List.length_nil]
    omega

/-- No step costs more than it spends, and every report spends something of the `cost`. -/
theorem Valid.cost_step {first : Nat} {m : Option KeyMatch} (hvalid : Valid t first tr)
    (h : Step t tr m tr') : cost t tr' + m.toList.length ≤ cost t tr := by
  cases h with
  | skip hpending _ =>
    simp only [cost, pendingValues, hpending, startsLeft, List.length_cons, Option.toList_none,
      List.length_nil]
    omega
  | report hpending _ =>
    simp only [cost, pendingValues, hpending, startsLeft, List.length_cons, Option.toList_some,
      List.length_nil]
    omega
  | @visit f rest hidle hstack =>
    have hfits := (hvalid.stack f (by simp [hstack])).2.fits
    have hspent := Transducer.sum_potential_successors_lt tr.input tr.maxEdits hfits
    have hvalues : f.node.values.length ≤ t.root.weight :=
      (Trie.length_values_le_weight f.node).trans hfits.weight
    have hpending : (pendingValues { tr with
        stack := t.successors tr.input tr.maxEdits f ++ rest
        pending := if f.node.values.isEmpty then none else some (f, f.node.values) }).length ≤
        t.root.weight := by
      simp only [pendingValues]
      split
      · rename_i hif
        split at hif
        · exact absurd hif (by simp)
        · obtain ⟨-, rfl⟩ := Prod.mk.inj (Option.some.inj hif)
          exact hvalues
      · exact Nat.zero_le _
    simp only [cost, hidle, hstack, startsLeft, List.map_append, List.sum_append, List.map_cons,
      List.sum_cons, List.length_nil, Option.toList_none, Nat.zero_add, Nat.add_zero]
    -- The values of the frame are paid for by what its successors do not cost.
    calc _ ≤ t.root.weight + t.root.weight *
          (((t.successors tr.input tr.maxEdits f).map (t.potential tr.input tr.maxEdits)).sum +
            (rest.map (t.potential tr.input tr.maxEdits)).sum +
            tr.startsLeft * t.branching ^ (t.root.height + min tr.maxEdits tr.input.length + 1)) :=
          Nat.add_le_add_right hpending _
      _ = t.root.weight *
          (((t.successors tr.input tr.maxEdits f).map (t.potential tr.input tr.maxEdits)).sum + 1 +
            (rest.map (t.potential tr.input tr.maxEdits)).sum +
            tr.startsLeft *
              t.branching ^ (t.root.height + min tr.maxEdits tr.input.length + 1)) := by
          ring
      _ ≤ _ := by
          apply Nat.mul_le_mul_left
          apply Nat.add_le_add_right
          exact Nat.add_le_add_right hspent _
  | begin hidle hstack hbegin =>
    simp only [mayBegin, Bool.and_eq_true, decide_eq_true_eq] at hbegin
    have hleft : tr.startsLeft =
        min tr.startLimit (tr.input.length + 1) - (tr.nextStart + 1) + 1 := by
      unfold startsLeft
      omega
    have hroot := potential_root_le t tr.input tr.maxEdits tr.nextStart
    have hcost : cost t tr = t.root.weight *
        ((min tr.startLimit (tr.input.length + 1) - (tr.nextStart + 1) + 1) *
          t.branching ^ (t.root.height + min tr.maxEdits tr.input.length + 1)) := by
      simp [cost, hidle, hstack, hleft]
    rw [hcost]
    simp only [cost, pendingValues, startsLeft, List.map_cons, List.map_nil, List.sum_cons,
      List.sum_nil, List.length_nil, Option.toList_none, Nat.zero_add, Nat.add_zero]
    apply Nat.mul_le_mul_left
    rw [Nat.add_mul, Nat.one_mul, Nat.add_comm]
    exact Nat.add_le_add_left hroot _

/-- What `Waits` has not been paid for yet. -/
theorem Waits.cost_pos {first : Nat} (hw : Waits t tr f v) (hvalid : Valid t first tr) :
    0 < cost t tr := by
  have hbase (n : Nat) : 0 < t.branching ^ n := by
    apply Nat.pow_pos
    simp [Transducer.branching]
  -- A frame with a value is part of a trie with a value.
  have hweight {f₀ : Frame} (hfits : Fits t f₀) (hvisits : Visits t tr.input tr.maxEdits f₀ f)
      (hv : v ∈ f.node.values) : 0 < t.root.weight := by
    have hfits' : Fits t f := hvisits.keeps (fun _ _ h hread => h.reads hread) hfits
    have hpos := List.length_pos_of_mem hv
    have hle := Trie.length_values_le_weight f.node
    have hle' := hfits'.weight
    omega
  unfold cost
  cases hw with
  | pending _ heq hv =>
    have hpos := List.length_pos_of_mem hv
    simp only [pendingValues, heq]
    omega
  -- The frame on the stack is still to be paid for.
  | @stacked f₀ _ hmem hvisits hv =>
    have hpos := hweight (hvalid.stack f₀ hmem).2.fits hvisits hv
    have hle : t.potential tr.input tr.maxEdits f₀ ≤
        (tr.stack.map (t.potential tr.input tr.maxEdits)).sum :=
      List.le_sum_of_mem (List.mem_map_of_mem hmem)
    have hone : 0 < t.potential tr.input tr.maxEdits f₀ := hbase _
    have := Nat.mul_pos hpos (Nat.lt_of_lt_of_le hone
      (hle.trans (Nat.le_add_right _ (tr.startsLeft * t.branching ^
        (t.root.height + min tr.maxEdits tr.input.length + 1)))))
    omega
  -- So are the starts that are left.
  | @ahead start hnext hlimit hlength hvisits hv =>
    have hpos := hweight (Transducer.fits_root t start) hvisits hv
    have hleft : 0 < tr.startsLeft := by
      unfold startsLeft
      omega
    have := Nat.mul_pos hpos (Nat.lt_of_lt_of_le (Nat.mul_pos hleft
      (hbase (t.root.height + min tr.maxEdits tr.input.length + 1)))
      (Nat.le_add_left _ (tr.stack.map (t.potential tr.input tr.maxEdits)).sum))
    omega

theorem Valid.silent {first : Nat} (hvalid : Valid t first tr) (h : Silent t tr tr₁) :
    Valid t first tr₁ ∧ cost t tr₁ ≤ cost t tr := by
  induction h with
  | refl => exact ⟨hvalid, Nat.le_refl _⟩
  | tail _ hstep ih =>
    have hcost := ih.1.cost_step hstep
    simp only [Option.toList_none, List.length_nil, Nat.add_zero] at hcost
    exact ⟨ih.1.step hstep, hcost.trans ih.2⟩

theorem Silent.same (h : Silent t tr tr₁) :
    tr₁.input = tr.input ∧ tr₁.maxEdits = tr.maxEdits ∧ tr₁.startLimit = tr.startLimit := by
  induction h with
  | refl => exact ⟨rfl, rfl, rfl⟩
  | tail _ hstep ih =>
    obtain ⟨hinput, hedits, hlimit⟩ := hstep.same
    exact ⟨hinput.trans ih.1, hedits.trans ih.2.1, hlimit.trans ih.2.2⟩

end Traversal

/-! ## All matches -/

namespace Transducer

open Traversal (Waits Valid Reports Comes cost matchOf)

variable {α : Type u} {t : Transducer α} {tr : Traversal} {f : Frame} {v : Nat}

/-- Whether no search for a match is given up, among the first `count`. -/
def completesWithin (t : Transducer α) : (count : Nat) → Traversal → Bool
  | 0, _ => true
  | count + 1, tr =>
    match t.next stepLimit tr with
    | (some _, tr) => t.completesWithin count tr
    | (none, tr) => tr.isOver

/-- Whether no search for a match is given up. -/
def completes (t : Transducer α) (tr : Traversal) : Bool :=
  t.completesWithin (t.matchBound tr) tr

/-- A match is that of a frame visited with one of its values. -/
def Found (t : Transducer α) (tr : Traversal) (first : Nat) (m : KeyMatch) : Prop :=
  ∃ f v, Comes t tr first f ∧ v ∈ f.node.values ∧ m = matchOf f v

private theorem found_of_step {tr' : Traversal} {first : Nat} {m : KeyMatch}
    (hvalid : Valid t first tr) (h : Traversal.Step t tr (some m) tr') : Found t tr first m := by
  cases h with
  | report hpending _ =>
    obtain ⟨-, hcomes, hsub⟩ := hvalid.pending _ _ hpending
    exact ⟨_, _, hcomes, hsub.subset (List.mem_cons_self ..), rfl⟩

theorem found_of_mem_takeMatches {first count : Nat} {m : KeyMatch} (hvalid : Valid t first tr)
    (hm : m ∈ t.takeMatches count tr) : Found t tr first m := by
  induction count generalizing tr with
  | zero => exact absurd hm List.not_mem_nil
  | succ count ih =>
    obtain ⟨tr₁, hsilent, ⟨m', hnext, hstep⟩ | ⟨hnone, -⟩⟩ :=
      Traversal.exists_silent_next t stepLimit tr
    · obtain ⟨hvalid₁, -⟩ := hvalid.silent hsilent
      obtain ⟨hinput, hedits, hlimit⟩ := hsilent.same
      -- What is found from a later state is found in the same text.
      have hback {tr₂ : Traversal} {m : KeyMatch} (hinput : tr₂.input = tr.input)
          (hedits : tr₂.maxEdits = tr.maxEdits) (hlimit : tr₂.startLimit = tr.startLimit)
          (h : Found t tr₂ first m) : Found t tr first m := by
        obtain ⟨f, v, hc, hv, rfl⟩ := h
        exact ⟨f, v, ⟨hc.first, hlimit ▸ hc.limit, hinput ▸ hc.length,
          hinput ▸ hedits ▸ hc.visits⟩, hv, rfl⟩
      have heq : t.next stepLimit tr = (some m', (t.next stepLimit tr).2) := by
        rw [← hnext]
      rw [takeMatches, heq] at hm
      -- The first match is reported by this step, the others behind it.
      rcases List.mem_cons.1 hm with rfl | hm
      · exact hback hinput hedits hlimit (found_of_step hvalid₁ hstep)
      · obtain ⟨hinput', hedits', hlimit'⟩ := hstep.same
        exact hback (hinput'.trans hinput) (hedits'.trans hedits) (hlimit'.trans hlimit)
          (ih (hvalid₁.step hstep) hm)
    · have heq : t.next stepLimit tr = (none, (t.next stepLimit tr).2) := by
        rw [← hnone]
      rw [takeMatches, heq] at hm
      exact absurd hm List.not_mem_nil

theorem exists_mem_takeMatches {first count : Nat} (hvalid : Valid t first tr)
    (hw : Waits t tr f v) (hcost : cost t tr ≤ count)
    (hcompletes : t.completesWithin count tr = true) :
    ∃ m ∈ t.takeMatches count tr, Reports m f v := by
  induction count generalizing tr with
  | zero => exact absurd (hw.cost_pos hvalid) (by omega)
  | succ count ih =>
    obtain ⟨tr₁, hsilent, hnext⟩ := Traversal.exists_silent_next t stepLimit tr
    obtain ⟨hvalid₁, hcost₁⟩ := hvalid.silent hsilent
    have hw₁ := hw.silent hvalid hsilent
    -- A report spends something, so the bound covers what waits behind it.
    rcases hnext with ⟨m, hnext, hstep⟩ | ⟨hnone, hover⟩
    · have heq : t.next stepLimit tr = (some m, (t.next stepLimit tr).2) := by
        rw [← hnext]
      rw [takeMatches, heq]
      rw [completesWithin, heq] at hcompletes
      -- What waits is reported now or waits still.
      rcases hw₁.step hvalid₁ hstep with ⟨m', hm', hreports⟩ | hw'
      · obtain rfl := Option.some.inj hm'
        exact ⟨m, List.mem_cons_self .., hreports⟩
      · have hspent := hvalid₁.cost_step hstep
        simp only [Option.toList_some, List.length_cons, List.length_nil] at hspent
        obtain ⟨m', hm', hreports⟩ := ih (hvalid₁.step hstep) hw' (by omega) hcompletes
        exact ⟨m', List.mem_cons_of_mem _ hm', hreports⟩
    · -- Nothing is reported any more, so nothing can wait.
      have heq : t.next stepLimit tr = (none, (t.next stepLimit tr).2) := by
        rw [← hnone]
      rw [completesWithin, heq] at hcompletes
      exact absurd hw₁ (Traversal.not_waits_of_isOver (hover hcompletes))

/-- A traversal at its beginning. -/
structure IsStart (tr : Traversal) : Prop where
  stack : tr.stack = []
  pending : tr.pending = none

theorem IsStart.valid (h : IsStart tr) : Valid t tr.nextStart tr where
  nextStart := Nat.le_refl _
  stack := by simp [h.stack]
  pending := by simp [h.pending]

theorem isStart_search (maxEdits first : Nat) (input : List Char) :
    IsStart (.search maxEdits first input) :=
  ⟨rfl, rfl⟩

theorem isStart_anchored (start : Nat) (input : List Char) : IsStart (.anchored start input) :=
  ⟨rfl, rfl⟩

theorem IsStart.cost_le_matchBound (h : IsStart tr) (hweight : t.root.weight ≤ t.values.size) :
    cost t tr ≤ t.matchBound tr := by
  have hcost : cost t tr = t.root.weight *
      (tr.startsLeft * t.branching ^ (t.root.height + min tr.maxEdits tr.input.length + 1)) := by
    simp [cost, Traversal.pendingValues, h.stack, h.pending]
  have hleft : tr.startsLeft ≤ tr.input.length + 1 := by
    unfold Traversal.startsLeft
    omega
  rw [hcost]
  calc t.root.weight *
        (tr.startsLeft * t.branching ^ (t.root.height + min tr.maxEdits tr.input.length + 1))
      ≤ (t.values.size + 1) * ((tr.input.length + 1) *
        t.branching ^ (t.root.height + min tr.maxEdits tr.input.length + 1)) := by
        apply Nat.mul_le_mul (Nat.le_succ_of_le hweight)
        exact Nat.mul_le_mul_right _ hleft
    _ = t.matchBound tr := by
        unfold matchBound branching
        rw [Nat.pow_eq]
        ring

/-- All that is visited is found, unless the search for a match is given up. -/
theorem exists_mem_matchesOf (hstart : IsStart tr) (hweight : t.root.weight ≤ t.values.size)
    (hcompletes : t.completes tr = true) (hcomes : Comes t tr tr.nextStart f)
    (hv : v ∈ f.node.values) : ∃ m ∈ t.matchesOf tr, Reports m f v :=
  exists_mem_takeMatches hstart.valid
    (.ahead hcomes.first hcomes.limit hcomes.length hcomes.visits hv)
    (hstart.cost_le_matchBound hweight) hcompletes

/-- All that is found is visited. -/
theorem found_of_mem_matchesOf {m : KeyMatch} (hstart : IsStart tr) (hm : m ∈ t.matchesOf tr) :
    Found t tr tr.nextStart m :=
  found_of_mem_takeMatches hstart.valid hm

end Transducer

end Morphology
