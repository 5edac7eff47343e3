import Mathlib.Tactic.Common
import Morphology.EditDistance

/-!
# What the edit distance measures

The rows of the edit distance are compared with scripts of edits: deletions, insertions,
substitutions and swaps of neighbours, each character being edited once.

## Main definitions

* `Edits` — a text is made into another by a number of edits

## Main statements

* `leastEdits_editDistance` — the edit distance is the least number of edits
* `LeastEdits.bounds` — it lies between the difference of the lengths and the greater length
* `editDistance_cons_cons` — it comes from those of texts without their first characters
* `editDistance_le_iff` — it keeps to a bound if so many edits suffice
-/

namespace Morphology

/-- The first text is made into the second by a number of edits, no character being edited
twice. -/
inductive Edits : List Char → List Char → Nat → Prop
  | nil : Edits [] [] 0
  | keep {c : Char} {as bs : List Char} {n : Nat} (h : Edits as bs n) :
      Edits (c :: as) (c :: bs) n
  | substitute {a b : Char} {as bs : List Char} {n : Nat} (h : Edits as bs n) :
      Edits (a :: as) (b :: bs) (n + 1)
  | delete {a : Char} {as bs : List Char} {n : Nat} (h : Edits as bs n) :
      Edits (a :: as) bs (n + 1)
  | insert {b : Char} {as bs : List Char} {n : Nat} (h : Edits as bs n) :
      Edits as (b :: bs) (n + 1)
  | swap {a b : Char} {as bs : List Char} {n : Nat} (h : Edits as bs n) :
      Edits (a :: b :: as) (b :: a :: bs) (n + 1)

namespace Edits

variable {as bs : List Char} {n : Nat}

theorem refl (as : List Char) : Edits as as 0 := by
  induction as with
  | nil => exact .nil
  | cons a as ih => exact .keep ih

/-- Texts that need no edits are equal. -/
theorem eq_of_zero (h : Edits as bs 0) : as = bs := by
  generalize hn : 0 = n at h
  induction h with
  | nil => rfl
  | keep _ ih => rw [ih hn]
  | substitute | delete | insert | swap => omega

theorem insertAll (bs : List Char) : Edits [] bs bs.length := by
  induction bs with
  | nil => exact .nil
  | cons b bs ih => exact .insert ih

theorem deleteAll (as : List Char) : Edits as [] as.length := by
  induction as with
  | nil => exact .nil
  | cons a as ih => exact .delete ih

/-- An edit changes the length by at most one. -/
theorem length_le (h : Edits as bs n) : bs.length ≤ as.length + n ∧ as.length ≤ bs.length + n := by
  induction h with
  | nil => simp
  | keep _ ih =>
    simp only [List.length_cons]
    omega
  | substitute _ ih | delete _ ih | insert _ ih | swap _ ih =>
    simp only [List.length_cons]
    omega

/-- Scripts are put one behind the other. -/
theorem append {as' bs' : List Char} {n' : Nat} (h : Edits as bs n) (h' : Edits as' bs' n') :
    Edits (as ++ as') (bs ++ bs') (n + n') := by
  induction h with
  | nil => simpa using h'
  | keep _ ih => exact .keep ih
  -- The edit of the first part stays an edit of the whole.
  | substitute _ ih =>
    rw [Nat.add_right_comm]
    exact .substitute ih
  | delete _ ih =>
    rw [Nat.add_right_comm]
    exact .delete ih
  | insert _ ih =>
    rw [Nat.add_right_comm]
    exact .insert ih
  | swap _ ih =>
    rw [Nat.add_right_comm]
    exact .swap ih

/-- What turns one text into another, taken backwards, turns that into the first. -/
theorem symm (h : Edits as bs n) : Edits bs as n := by
  induction h with
  | nil => exact .nil
  | keep _ ih => exact .keep ih
  | substitute _ ih => exact .substitute ih
  | delete _ ih => exact .insert ih
  | insert _ ih => exact .delete ih
  | swap _ ih => exact .swap ih

/-- The last edit of a script is the first one of the texts read from behind. -/
theorem reverse (h : Edits as bs n) : Edits as.reverse bs.reverse n := by
  induction h with
  | nil => exact .nil
  | keep _ ih => simpa using ih.append (.keep .nil)
  | substitute _ ih => simpa using ih.append (.substitute .nil)
  | delete _ ih => simpa using ih.append (.delete .nil)
  | insert _ ih => simpa using ih.append (.insert .nil)
  | @swap a b as bs n _ ih => simpa using ih.append (.swap (a := b) (b := a) .nil)

/-- As many edits as the longer text has characters are enough. -/
theorem rewriteAll (as bs : List Char) : Edits as bs (max as.length bs.length) := by
  induction as generalizing bs with
  | nil => simpa using insertAll bs
  | cons a as ih =>
    cases bs with
    | nil => simpa using deleteAll (a :: as)
    | cons b bs => simpa using (ih bs).substitute

/-- A first character is kept, or put in place of another. -/
theorem first {a b : Char} (h : Edits as bs n) :
    Edits (a :: as) (b :: bs) (n + if a = b then 0 else 1) := by
  split
  · rename_i heq
    subst heq
    exact .keep h
  · exact .substitute h

/-- A script begins with one of the edits of the first characters. -/
theorem cases_first {a b : Char} (h : Edits (a :: as) (b :: bs) n) :
    (∃ m, Edits as (b :: bs) m ∧ n = m + 1) ∨ (∃ m, Edits (a :: as) bs m ∧ n = m + 1) ∨
      (∃ m, Edits as bs m ∧ m + (if a = b then 0 else 1) ≤ n) ∨
      ∃ as' bs' m, as = b :: as' ∧ bs = a :: bs' ∧ Edits as' bs' m ∧ n = m + 1 := by
  cases h with
  | keep h => exact .inr (.inr (.inl ⟨_, h, by simp⟩))
  | @substitute _ _ _ _ m h =>
    have hle : (if a = b then 0 else 1) ≤ 1 := by split <;> omega
    exact .inr (.inr (.inl ⟨m, h, Nat.add_le_add_left hle m⟩))
  | delete h => exact .inl ⟨_, h, rfl⟩
  | insert h => exact .inr (.inl ⟨_, h, rfl⟩)
  | swap h => exact .inr (.inr (.inr ⟨_, _, _, rfl, rfl, h, rfl⟩))

theorem lesser {m : Nat} (hm : Edits as bs m) (hn : Edits as bs n) : Edits as bs (min m n) := by
  rcases Nat.le_total m n with h | h
  · rwa [Nat.min_eq_left h]
  · rwa [Nat.min_eq_right h]

end Edits

/-! ## Rows -/

/-- The least number of edits. -/
structure LeastEdits (as bs : List Char) (n : Nat) : Prop where
  edits : Edits as bs n
  le : ∀ m, Edits as bs m → n ≤ m

namespace LeastEdits

variable {as bs : List Char} {m n : Nat}

theorem unique (hm : LeastEdits as bs m) (hn : LeastEdits as bs n) : m = n :=
  Nat.le_antisymm (hm.le n hn.edits) (hn.le m hm.edits)

theorem symm (h : LeastEdits as bs n) : LeastEdits bs as n where
  edits := h.edits.symm
  le := fun m hm => h.le m hm.symm

theorem reverse (h : LeastEdits as bs n) : LeastEdits as.reverse bs.reverse n where
  edits := h.edits.reverse
  le := fun m hm => h.le m (by simpa using hm.reverse)

/-- The least number of edits lies between the difference of the lengths and the greater length. -/
theorem bounds (h : LeastEdits as bs n) :
    max as.length bs.length - min as.length bs.length ≤ n ∧ n ≤ max as.length bs.length := by
  have hlength := h.edits.length_le
  refine ⟨by omega, ?_⟩
  exact h.le _ (.rewriteAll as bs)

/-- Only equal texts need no edits. -/
theorem eq_zero_iff (h : LeastEdits as bs n) : n = 0 ↔ as = bs := by
  constructor
  · rintro rfl
    exact h.edits.eq_of_zero
  · rintro rfl
    exact Nat.le_zero.1 (h.le 0 (.refl as))

end LeastEdits

/-- A row has the least numbers of edits that make a text into the ends of another. -/
def IsRow (as : List Char) : List Char → List Nat → Prop
  | [], row => ∃ n, row = [n] ∧ LeastEdits as [] n
  | b :: bs, row => ∃ n rest, row = n :: rest ∧ LeastEdits as (b :: bs) n ∧ IsRow as bs rest

variable {as bs : List Char} {a b : Char}

theorem LeastEdits.nil_left (bs : List Char) : LeastEdits [] bs bs.length where
  edits := .insertAll bs
  le := by
    intro m hm
    simpa using hm.length_le.1

theorem LeastEdits.nil_right (as : List Char) : LeastEdits as [] as.length where
  edits := .deleteAll as
  le := by
    intro m hm
    simpa using hm.length_le.2

/-- The first row of all counts the characters left. -/
theorem isRow_endLengths (bs : List Char) : IsRow [] bs (endLengths bs) := by
  induction bs with
  | nil => exact ⟨0, rfl, .nil_left []⟩
  | cons b bs ih => exact ⟨bs.length + 1, endLengths bs, rfl, .nil_left (b :: bs), ih⟩

/-- The least number of edits comes from those for texts without their first characters:
`LeastEdits` of the three neighbours, and of the texts behind a swap where the next two characters
are the same in the opposite order. -/
theorem LeastEdits.step {deleted inserted kept swapped : Nat}
    (hdel : LeastEdits as (b :: bs) deleted) (hins : LeastEdits (a :: as) bs inserted)
    (hkeep : LeastEdits as bs kept)
    (hswap : ∀ as' bs', as = b :: as' → bs = a :: bs' → LeastEdits as' bs' swapped) :
    LeastEdits (a :: as) (b :: bs)
      (let best := min (min (deleted + 1) (inserted + 1)) (kept + if a = b then 0 else 1)
      if as.head? = some b ∧ bs.head? = some a then min best (swapped + 1) else best) := by
  have hbest := (hdel.edits.delete.lesser hins.edits.insert).lesser hkeep.edits.first
  constructor
  · dsimp only
    -- The first two characters of each text are those of the other in the opposite order.
    split
    · rename_i hheads
      obtain ⟨as', rfl⟩ := List.head?_eq_some_iff.1 hheads.1
      obtain ⟨bs', rfl⟩ := List.head?_eq_some_iff.1 hheads.2
      exact hbest.lesser (hswap as' bs' rfl rfl).edits.swap
    · exact hbest
  · intro m hm
    dsimp only
    -- Without a swap the least is one of the other three.
    have hle (best : Nat) : (if as.head? = some b ∧ bs.head? = some a then
        min best (swapped + 1) else best) ≤ best := by
      split
      · exact Nat.min_le_left _ _
      · exact Nat.le_refl _
    -- The first edit decides which of the four numbers bounds the rest.
    rcases hm.cases_first with
      ⟨k, h, rfl⟩ | ⟨k, h, rfl⟩ | ⟨k, h, hk⟩ | ⟨as', bs', k, rfl, rfl, h, rfl⟩
    · -- Deleted.
      have hk := hdel.le k h
      exact Nat.le_trans (hle _) (by omega)
    · -- Inserted.
      have hk := hins.le k h
      exact Nat.le_trans (hle _) (by omega)
    · -- Kept or put for another.
      have hk' := hkeep.le k h
      exact Nat.le_trans (hle _) (by omega)
    · -- Swapped, so the next characters are as the condition asks.
      have hk := (hswap as' bs' rfl rfl).le k h
      rw [if_pos ⟨rfl, rfl⟩]
      omega

/-- A row that `editRow` makes belongs to a text if the rows below it belong to the text without its
first character and without its first two. -/
theorem isRow_editRow {below second : List Nat} (hbelow : IsRow as bs below)
    (hsecond : ∀ c as', as = c :: as' → IsRow as' bs second) :
    IsRow (a :: as) bs (editRow a as below second bs) := by
  induction bs generalizing below second with
  | nil => exact ⟨as.length + 1, rfl, .nil_right (a :: as)⟩
  | cons b bs ih =>
    obtain ⟨deleted, rest, rfl, hdel, hrest⟩ := hbelow
    have htail : ∀ c as', as = c :: as' → IsRow as' bs second.tail := by
      intro c as' has
      obtain ⟨n, rest', hsecond, -, hrest'⟩ := hsecond c as' has
      rwa [hsecond]
    have hright := ih hrest htail
    -- The first number of a row is that for the whole text.
    have hfirst {as' bs' : List Char} {row : List Nat} (h : IsRow as' bs' row) :
        LeastEdits as' bs' (row.headD 0) := by
      cases bs' with
      | nil =>
        obtain ⟨n, rfl, hn⟩ := h
        exact hn
      | cons b' bs' =>
        obtain ⟨n, rest, rfl, hn, -⟩ := h
        exact hn
    refine ⟨_, _, rfl, ?_, hright⟩
    apply LeastEdits.step hdel (hfirst hright) (hfirst hrest)
    -- The swap leads to the row of the text without its first two characters.
    intro as' bs' has hbs
    have hrow := htail b as' has
    subst hbs
    obtain ⟨n, rest', hn, -, hrest'⟩ := hrow
    rw [hn]
    exact hfirst hrest'

/-- Both rows that are kept are rows. -/
theorem isRow_editRows (as bs : List Char) : IsRow as bs (editRows bs as).1 ∧
    ∀ c as', as = c :: as' → IsRow as' bs (editRows bs as).2 := by
  induction as with
  | nil => exact ⟨isRow_endLengths bs, by simp⟩
  | cons a as ih =>
    refine ⟨isRow_editRow ih.1 ih.2, ?_⟩
    rintro c as' heq
    obtain ⟨-, rfl⟩ := List.cons.inj heq
    exact ih.1

/-! ## The distance -/

/-- The edit distance is the least number of edits. -/
theorem leastEdits_editDistance (as bs : List Char) : LeastEdits as bs (editDistance as bs) := by
  have hrow := (isRow_editRows as bs).1
  unfold editDistance
  cases bs with
  | nil =>
    obtain ⟨n, hn, hleast⟩ := hrow
    rwa [hn]
  | cons b bs =>
    obtain ⟨n, rest, hn, hleast, -⟩ := hrow
    rwa [hn]

@[simp] theorem editDistance_nil_left (bs : List Char) : editDistance [] bs = bs.length :=
  (leastEdits_editDistance [] bs).unique (.nil_left bs)

@[simp] theorem editDistance_nil_right (as : List Char) : editDistance as [] = as.length :=
  (leastEdits_editDistance as []).unique (.nil_right as)

/-- The edit distance comes from those of texts without their first characters. -/
theorem editDistance_cons_cons (a b : Char) (as bs : List Char) :
    editDistance (a :: as) (b :: bs) =
      (let best := min (min (editDistance as (b :: bs) + 1) (editDistance (a :: as) bs + 1))
        (editDistance as bs + if a = b then 0 else 1)
      if as.head? = some b ∧ bs.head? = some a then min best (editDistance as.tail bs.tail + 1)
      else best) := by
  apply (leastEdits_editDistance (a :: as) (b :: bs)).unique
  apply LeastEdits.step
  · exact leastEdits_editDistance as (b :: bs)
  · exact leastEdits_editDistance (a :: as) bs
  · exact leastEdits_editDistance as bs
  · rintro as' bs' rfl rfl
    exact leastEdits_editDistance as' bs'

/-- The edit distance keeps to a bound if so many edits suffice. -/
theorem editDistance_le_iff {k : Nat} :
    editDistance as bs ≤ k ↔ ∃ n, n ≤ k ∧ Edits as bs n := by
  constructor
  · intro h
    exact ⟨_, h, (leastEdits_editDistance as bs).edits⟩
  · rintro ⟨n, hn, hedits⟩
    exact Nat.le_trans ((leastEdits_editDistance as bs).le n hedits) hn

example : editDistance "parse".toList "aprses".toList = 2 := by
  decide

end Morphology
