import Morphology.Proofs.Transducer.Traversal

/-!
# Looking keys up in the rest of a text

A traversal does not look at the text in front of the place where it begins, so that texts that
agree from there on are traversed in the same way.

## Main definitions

* `AgreeFrom` — two texts agree from a place on
* `Traversal.withInput` — the same traversal of another text
* `Traversal.IsFrom` — a traversal that has left a place behind

## Main statements

* `Traversal.Step.withInput` — a step in one text is a step in the other
* `Transducer.valuesAt_congr` — the values of keys depend on the rest of the text only
-/

namespace Morphology

universe u

/-- Two texts are equally long and agree from a place on. -/
structure AgreeFrom (first : Nat) (text text' : List Char) : Prop where
  length : text'.length = text.length
  char : ∀ i, first ≤ i → text'[i]? = text[i]?

namespace AgreeFrom

variable {first pos : Nat} {text text' : List Char}

theorem mono (h : AgreeFrom first text text') (hle : first ≤ pos) : AgreeFrom pos text text' :=
  ⟨h.length, fun i hi => h.char i (hle.trans hi)⟩

/-- Texts with the same end agree in it. -/
theorem of_append {front front' : List Char} (h : front'.length = front.length)
    (rest : List Char) : AgreeFrom front.length (front ++ rest) (front' ++ rest) where
  length := by rw [List.length_append, List.length_append, h]
  char := by
    intro i hi
    rw [List.getElem?_append_right hi, List.getElem?_append_right (h.trans_le hi), h]

end AgreeFrom

namespace Transducer

variable {α : Type u} {t : Transducer α} {input input' : List Char} {maxEdits : Nat} {f f' : Frame}

/-- A reading goes on in the text, or stays where it is. -/
theorem Reads.pos_le (h : Reads t input maxEdits f f') : f.pos ≤ f'.pos := by
  cases h with
  | exact | wild | substitute | delete | insert | transpose => exact Nat.le_add_right ..

/-- The frames one step further depend on the rest of the text only. -/
theorem successors_congr (h : AgreeFrom f.pos input input') :
    t.successors input' maxEdits f = t.successors input maxEdits f := by
  have hhere := h.char f.pos (Nat.le_refl _)
  have hnext := h.char (f.pos + 1) (Nat.le_succ _)
  simp only [successors, exactStep, substitutions, deletions, transpositions, hhere, hnext, h.length]

end Transducer

/-! ## Traversals of two texts -/

namespace Traversal

variable {α : Type u} {t : Transducer α} {tr tr' tr₁ : Traversal} {input' : List Char} {first : Nat}
  {m : Option KeyMatch}

/-- The same traversal of another text. -/
def withInput (tr : Traversal) (input : List Char) : Traversal :=
  { tr with input := input }

/-- A traversal that has left behind what is in front of a place. -/
structure IsFrom (first : Nat) (tr : Traversal) : Prop where
  nextStart : first ≤ tr.nextStart
  stack : ∀ f ∈ tr.stack, first ≤ f.pos

theorem IsFrom.step (hfrom : IsFrom first tr) (h : Step t tr m tr') : IsFrom first tr' := by
  cases h with
  | skip | report => exact ⟨hfrom.nextStart, hfrom.stack⟩
  | @visit f rest _ hstack =>
    have hmem := hfrom.stack
    rw [hstack, List.forall_mem_cons] at hmem
    refine ⟨hfrom.nextStart, fun f' hf' => ?_⟩
    rcases List.mem_append.1 hf' with hf' | hf'
    · -- A frame that is new on the stack is not in front of the one it comes from.
      exact hmem.1.trans (Transducer.mem_successors_iff.1 hf').pos_le
    · exact hmem.2 f' hf'
  | begin =>
    refine ⟨Nat.le_succ_of_le hfrom.nextStart, fun f hf => ?_⟩
    -- What begins now begins at the next start.
    rw [List.mem_singleton.1 hf]
    exact hfrom.nextStart

theorem IsFrom.silent (hfrom : IsFrom first tr) (h : Silent t tr tr₁) : IsFrom first tr₁ := by
  induction h with
  | refl => exact hfrom
  | tail _ hstep ih => exact ih.step hstep

theorem isOver_withInput (hlength : input'.length = tr.input.length) :
    (tr.withInput input').isOver = tr.isOver := by
  simp only [isOver, mayBegin, withInput, hlength]
  rfl

/-- A step in one text is a step in the other, if they agree from a place that the traversal has
reached. -/
theorem Step.withInput (h : Step t tr m tr') (hfrom : IsFrom first tr)
    (hagree : AgreeFrom first tr.input input') :
    Step t (tr.withInput input') m (tr'.withInput input') := by
  cases h with
  | skip hpending hseen => exact .skip hpending hseen
  | report hpending hnew => exact .report hpending hnew
  | @visit f rest hpending hstack =>
    -- The frame is behind the place from which the texts agree, so it has the same successors.
    have hsame : t.successors input' tr.maxEdits f = t.successors tr.input tr.maxEdits f :=
      Transducer.successors_congr (hagree.mono (hfrom.stack f (by simp [hstack])))
    have hvisit : Step t (tr.withInput input') none
        { tr.withInput input' with
          stack := t.successors input' tr.maxEdits f ++ rest
          pending := if f.node.values.isEmpty then none else some (f, f.node.values) } :=
      .visit hpending hstack
    rw [hsame] at hvisit
    exact hvisit
  | begin hpending hstack hbegin =>
    refine .begin hpending hstack ?_
    -- Whether another start is left is a matter of the length only.
    rwa [mayBegin, ← hagree.length] at hbegin

end Traversal

namespace Transducer

open Traversal (IsFrom)

variable {α : Type u} {t : Transducer α} {tr : Traversal} {input input' : List Char}
  {first pos : Nat}

/-- The `next` match is the same in both texts, and so is what comes behind it. -/
theorem next_withInput (hfrom : IsFrom first tr) (hagree : AgreeFrom first tr.input input')
    (limit : Nat) : (t.next limit (tr.withInput input')).1 = (t.next limit tr).1 ∧
      ((t.next limit tr).1.isSome = true →
        (t.next limit (tr.withInput input')).2 = (t.next limit tr).2.withInput input') := by
  induction limit generalizing tr with
  | zero => exact ⟨rfl, fun _ => rfl⟩
  | succ limit ih =>
    rcases Traversal.next_succ_cases t limit tr with
      ⟨m, tr', hstep, heq⟩ | ⟨tr', hstep, heq⟩ | ⟨hover, tr', -, heq⟩
    · rw [heq, (hstep.withInput hfrom hagree).next_of_report]
      exact ⟨rfl, fun _ => rfl⟩
    · rw [heq, (hstep.withInput hfrom hagree).next_of_silent]
      -- Nothing is reported yet, and the search goes on behind the step.
      exact ih (hfrom.step hstep) (hstep.same.1 ▸ hagree)
    · rw [← Traversal.isOver_withInput hagree.length] at hover
      rw [heq, Traversal.next_of_isOver hover]
      -- The traversal is over in both texts.
      exact ⟨rfl, fun h => absurd h Bool.false_ne_true⟩

theorem takeMatches_withInput (hfrom : IsFrom first tr) (hagree : AgreeFrom first tr.input input')
    (count : Nat) : t.takeMatches count (tr.withInput input') = t.takeMatches count tr := by
  induction count generalizing tr with
  | zero => rfl
  | succ count ih =>
    obtain ⟨hmatch, hbehind⟩ := next_withInput (t := t) hfrom hagree stepLimit
    obtain ⟨tr₁, hsilent, hnext⟩ := Traversal.exists_silent_next t stepLimit tr
    generalize hfound : t.next stepLimit tr = found at hmatch hbehind hnext
    generalize hfound' : t.next stepLimit (tr.withInput input') = found' at hmatch hbehind
    -- Both searches have found the same.
    obtain ⟨o, tr'⟩ := found
    obtain ⟨o', tr''⟩ := found'
    obtain rfl : o' = o := hmatch
    rw [takeMatches, takeMatches, hfound, hfound']
    cases o' with
    | none => rfl
    | some m =>
      -- What is behind a match is reached by a step that reports it, so it is as far in both texts.
      obtain ⟨m', -, hstep⟩ := hnext.resolve_right fun h => Option.some_ne_none m h.1
      obtain rfl : tr'' = tr'.withInput input' := hbehind rfl
      have hinput : tr'.input = tr.input := hstep.same.1.trans hsilent.same.1
      exact congrArg (m :: ·) (ih ((hfrom.silent hsilent).step hstep) (hinput ▸ hagree))

/-- The values of the keys at a place depend on the rest of the text only. -/
theorem valuesAt_congr (t : Transducer α) (hagree : AgreeFrom pos input input') :
    t.valuesAt input' pos = t.valuesAt input pos := by
  have hfrom : IsFrom pos (.anchored pos input) :=
    ⟨Nat.le_refl pos, fun f hf => absurd hf List.not_mem_nil⟩
  have hbound : t.matchBound (.anchored pos input') = t.matchBound (.anchored pos input) := by
    simp only [matchBound, Traversal.anchored, hagree.length, Nat.zero_min]
  have htake := takeMatches_withInput (t := t) hfrom hagree (t.matchBound (.anchored pos input))
  unfold valuesAt matchesOf
  rw [hbound, ← htake]
  rfl

end Transducer

end Morphology
