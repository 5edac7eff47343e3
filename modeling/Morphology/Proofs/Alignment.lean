import Mathlib.Data.List.Chain
import Mathlib.Data.List.Induction
import Morphology.Proofs.EditDistance
import Morphology.Transducer.Traversal

/-!
# Alignments

An alignment goes through a text and a key side by side: in each step a character is kept, or the
text is edited.  The edits have an order, which a number of edits has not.  Deletions at the ends of
an alignment may be left out, for then it aligns a part of the text.

## Main definitions

* `AlignStep` — a step in which a text and a key are gone through side by side
* `Aligns` — some steps go through a text and a key
* `EditKind.Apart` — neither kind of edit undoes the other
* `Trimmed` — some steps have no deletions at their ends
* `alignAround` — one step between characters that are kept

## Main statements

* `exists_aligns_of_edits` — a number of edits is that of an alignment
* `exists_trimmed` — deletions at the ends are taken off
-/

namespace Morphology

/-! ## Steps -/

/-- A step in which a text and a key are gone through side by side. -/
inductive AlignStep
  /-- A character that both have. -/
  | keep (c : Char)
  /-- A character of the text for another one of the key. -/
  | substitute (a b : Char)
  /-- A character that only the text has. -/
  | delete (a : Char)
  /-- A character that only the key has. -/
  | insert (b : Char)
  /-- Two characters of the text that the key has in the opposite order. -/
  | transpose (a b : Char)
  deriving Repr, DecidableEq

namespace AlignStep

/-- The characters of the text. -/
def source : AlignStep → List Char
  | keep c => [c]
  | substitute a _ => [a]
  | delete a => [a]
  | insert _ => []
  | transpose a b => [a, b]

/-- The characters of the key. -/
def target : AlignStep → List Char
  | keep c => [c]
  | substitute _ b => [b]
  | delete _ => []
  | insert b => [b]
  | transpose a b => [b, a]

/-- The edit, if it is one. -/
def kind? : AlignStep → Option EditKind
  | keep _ => none
  | substitute .. => some .substitute
  | delete _ => some .delete
  | insert _ => some .insert
  | transpose .. => some .transpose

/-- An edit changes something. -/
def Proper : AlignStep → Prop
  | substitute a b | transpose a b => a ≠ b
  | keep _ | delete _ | insert _ => True

/-- Whether the step is a deletion. -/
def isDeletion : AlignStep → Bool
  | delete _ => true
  | _ => false

theorem target_eq_nil_iff {s : AlignStep} : s.target = [] ↔ s.isDeletion = true := by
  cases s <;> simp [target, isDeletion]

/-- Only an insertion goes through nothing of the text. -/
theorem kind?_of_source_eq_nil {s : AlignStep} (h : s.source = []) : s.kind? = some .insert := by
  cases s with
  | insert b => rfl
  | keep | substitute | delete | transpose => exact absurd h (List.cons_ne_nil _ _)

theorem kind?_of_isDeletion {s : AlignStep} (h : s.isDeletion = true) : s.kind? = some .delete := by
  cases s with
  | delete a => rfl
  | keep | substitute | insert | transpose => exact absurd h Bool.false_ne_true

end AlignStep

/-! ## Alignments -/

/-- The edits among some steps, in their order. -/
def editKinds (steps : List AlignStep) : List EditKind :=
  steps.filterMap AlignStep.kind?

theorem editKinds_cons (s : AlignStep) (steps : List AlignStep) :
    editKinds (s :: steps) = s.kind?.toList ++ editKinds steps := by
  rw [editKinds, List.filterMap_cons]
  cases s.kind? with
  | none => rfl
  | some kind => rfl

theorem editKinds_append (steps more : List AlignStep) :
    editKinds (steps ++ more) = editKinds steps ++ editKinds more :=
  List.filterMap_append

/-- Some steps go through a text and a key. -/
structure Aligns (steps : List AlignStep) (text key : List Char) : Prop where
  proper : ∀ s ∈ steps, s.Proper
  source : steps.flatMap AlignStep.source = text
  target : steps.flatMap AlignStep.target = key

/-- Neither kind of edit takes back what the other does: they are not a deletion and an
insertion. -/
def EditKind.Apart (j k : EditKind) : Prop :=
  ¬ (j = .delete ∧ k = .insert) ∧ ¬ (j = .insert ∧ k = .delete)

instance : DecidableRel EditKind.Apart :=
  fun j k => inferInstanceAs (Decidable (¬ (j = .delete ∧ k = .insert) ∧
    ¬ (j = .insert ∧ k = .delete)))

namespace Aligns

variable {steps : List AlignStep} {s : AlignStep} {text key : List Char}

theorem nil : Aligns [] [] [] :=
  ⟨fun _ h => absurd h List.not_mem_nil, rfl, rfl⟩

theorem cons (hs : s.Proper) (h : Aligns steps text key) :
    Aligns (s :: steps) (s.source ++ text) (s.target ++ key) where
  proper := List.forall_mem_cons.2 ⟨hs, h.proper⟩
  source := by rw [List.flatMap_cons, h.source]
  target := by rw [List.flatMap_cons, h.target]

end Aligns

/-- A number of edits is that of an alignment, which leaves out those that change nothing. -/
theorem exists_aligns_of_edits {text key : List Char} {n : Nat} (h : Edits text key n) :
    ∃ steps, Aligns steps text key ∧ (editKinds steps).length ≤ n := by
  induction h with
  | nil => exact ⟨[], .nil, Nat.le_refl 0⟩
  | @keep c as bs n _ ih =>
    obtain ⟨steps, haligns, hle⟩ := ih
    exact ⟨.keep c :: steps, haligns.cons trivial, hle⟩
  | @substitute a b as bs n _ ih =>
    obtain ⟨steps, haligns, hle⟩ := ih
    -- To put a character for itself is no edit, and such steps are left out.
    by_cases heq : a = b
    · subst heq
      exact ⟨.keep a :: steps, haligns.cons trivial, Nat.le_succ_of_le hle⟩
    · exact ⟨.substitute a b :: steps, haligns.cons heq, Nat.succ_le_succ hle⟩
  | @delete a as bs n _ ih =>
    obtain ⟨steps, haligns, hle⟩ := ih
    exact ⟨.delete a :: steps, haligns.cons trivial, Nat.succ_le_succ hle⟩
  | @insert b as bs n _ ih =>
    obtain ⟨steps, haligns, hle⟩ := ih
    exact ⟨.insert b :: steps, haligns.cons trivial, Nat.succ_le_succ hle⟩
  | @swap a b as bs n _ ih =>
    obtain ⟨steps, haligns, hle⟩ := ih
    -- To swap a character with itself changes nothing either.
    by_cases heq : a = b
    · subst heq
      have hkept : Aligns (.keep a :: steps) (a :: as) (a :: bs) := haligns.cons trivial
      exact ⟨.keep a :: .keep a :: steps, hkept.cons trivial, Nat.le_succ_of_le hle⟩
    · exact ⟨.transpose a b :: steps, haligns.cons heq, Nat.succ_le_succ hle⟩

/-! ## Deletions at the ends -/

/-- Steps that are all deletions go through nothing of the key. -/
theorem flatMap_target_of_deletions {steps : List AlignStep}
    (h : ∀ s ∈ steps, s.isDeletion = true) : steps.flatMap AlignStep.target = [] :=
  List.flatMap_eq_nil_iff.2 fun s hs => AlignStep.target_eq_nil_iff.2 (h s hs)

/-- Behind a deletion comes no insertion, and so something of the text. -/
theorem flatMap_source_ne_nil {front core : List AlignStep}
    (hfront : ∀ s ∈ front, s.isDeletion = true) (hne : front ≠ []) (hcore : core ≠ [])
    (hapart : (editKinds (front ++ core)).IsChain EditKind.Apart) :
    core.flatMap AlignStep.source ≠ [] := by
  obtain ⟨s, core, rfl⟩ := List.exists_cons_of_ne_nil hcore
  obtain ⟨front, last, rfl⟩ := (List.eq_nil_or_concat' front).resolve_left hne
  -- Otherwise the first step of the core would be an insertion right behind the last deletion.
  intro hnil
  have hinsert := AlignStep.kind?_of_source_eq_nil
    (List.flatMap_eq_nil_iff.1 hnil s (List.mem_cons_self ..))
  have hdelete := AlignStep.kind?_of_isDeletion (hfront last (by simp))
  rw [editKinds_append, editKinds_append, editKinds_cons, editKinds_cons, hdelete, hinsert,
    List.append_assoc] at hapart
  exact (List.isChain_cons_cons.1 hapart.right_of_append).1.1 ⟨rfl, rfl⟩

/-- Some steps without deletions in front and behind. -/
structure Trimmed (steps : List AlignStep) : Prop where
  front : ∀ s ∈ steps.head?, s.isDeletion = false
  back : ∀ s ∈ steps.getLast?, s.isDeletion = false

/-- Steps fall into deletions in front, trimmed steps, and deletions behind. -/
theorem exists_trimmed (steps : List AlignStep) : ∃ front core back,
    steps = front ++ core ++ back ∧ (∀ s ∈ front, s.isDeletion = true) ∧ Trimmed core ∧
      ∀ s ∈ back, s.isDeletion = true := by
  induction steps using List.reverseRecOn with
  | nil => exact ⟨[], [], [], rfl, by simp, ⟨by simp, by simp⟩, by simp⟩
  | append_singleton steps s ih =>
    obtain ⟨front, core, back, rfl, hfront, hcore, hback⟩ := ih
    -- One more deletion stands behind, another step ends the core.
    cases hs : s.isDeletion with
    | true =>
      refine ⟨front, core, back ++ [s], by simp, hfront, hcore, fun s' hs' => ?_⟩
      rcases List.mem_append.1 hs' with hs' | hs'
      · exact hback s' hs'
      · rw [List.mem_singleton.1 hs', hs]
    | false =>
      cases core with
      | nil =>
        -- So far there are deletions only, all in front of the new step.
        refine ⟨front ++ back, [s], [], by simp, fun s' hs' => ?_, ?_, by simp⟩
        · exact (List.mem_append.1 hs').elim (hfront s') (hback s')
        · exact ⟨by simpa using hs, by simpa using hs⟩
      -- The deletions behind the core are now inside it.
      | cons first rest =>
        refine ⟨front, first :: rest ++ back ++ [s], [], by simp, hfront, ?_, by simp⟩
        refine ⟨fun s' hs' => hcore.front s' (by simpa using hs'), fun s' hs' => ?_⟩
        rw [List.getLast?_concat] at hs'
        exact Option.some.inj hs' ▸ hs

/-! ## One step between characters that are kept -/

/-- A step between characters that are kept. -/
def alignAround (front : List Char) (s : AlignStep) (back : List Char) : List AlignStep :=
  front.map .keep ++ s :: back.map .keep

theorem flatMap_source_keep (cs : List Char) :
    (cs.map AlignStep.keep).flatMap AlignStep.source = cs := by
  rw [List.flatMap_map]
  exact List.flatMap_singleton' cs

theorem flatMap_target_keep (cs : List Char) :
    (cs.map AlignStep.keep).flatMap AlignStep.target = cs := by
  rw [List.flatMap_map]
  exact List.flatMap_singleton' cs

theorem editKinds_keep (cs : List Char) : editKinds (cs.map AlignStep.keep) = [] := by
  rw [editKinds, List.filterMap_map]
  exact List.filterMap_eq_nil_iff.2 fun _ _ => rfl

theorem aligns_alignAround (front back : List Char) {s : AlignStep} (hs : s.Proper) :
    Aligns (alignAround front s back) (front ++ s.source ++ back) (front ++ s.target ++ back) where
  proper := by
    intro s' hs'
    rcases List.mem_append.1 hs' with hs' | hs'
    · obtain ⟨c, -, rfl⟩ := List.mem_map.1 hs'
      trivial
    · rcases List.mem_cons.1 hs' with rfl | hs'
      · exact hs
      · obtain ⟨c, -, rfl⟩ := List.mem_map.1 hs'
        trivial
  source := by
    rw [alignAround, List.flatMap_append, List.flatMap_cons, flatMap_source_keep,
      flatMap_source_keep, List.append_assoc]
  target := by
    rw [alignAround, List.flatMap_append, List.flatMap_cons, flatMap_target_keep,
      flatMap_target_keep, List.append_assoc]

theorem editKinds_alignAround (front back : List Char) (s : AlignStep) :
    editKinds (alignAround front s back) = s.kind?.toList := by
  rw [alignAround, editKinds_append, editKinds_cons, editKinds_keep, editKinds_keep,
    List.nil_append, List.append_nil]

/-- A deletion with characters on both sides is not at an end. -/
theorem trimmed_alignAround {front back : List Char} {s : AlignStep}
    (hs : s.isDeletion = true → front ≠ [] ∧ back ≠ []) : Trimmed (alignAround front s back) where
  front := by
    intro s' hs'
    -- The step is at an end only if nothing is kept there, and is no deletion then.
    cases front with
    | nil =>
      obtain rfl : s = s' := Option.some.inj hs'
      exact Bool.eq_false_iff.2 fun hdeletion => (hs hdeletion).1 rfl
    | cons c front =>
      obtain rfl : AlignStep.keep c = s' := Option.some.inj hs'
      rfl
  back := by
    intro s' hs'
    rw [alignAround, List.getLast?_append_cons] at hs'
    rcases List.eq_nil_or_concat' back with rfl | ⟨back, c, rfl⟩
    · obtain rfl : s = s' := Option.some.inj hs'
      exact Bool.eq_false_iff.2 fun hdeletion => (hs hdeletion).2 rfl
    · rw [List.map_append, ← List.cons_append, List.map_singleton, List.getLast?_concat] at hs'
      obtain rfl : AlignStep.keep c = s' := Option.some.inj hs'
      rfl

end Morphology
