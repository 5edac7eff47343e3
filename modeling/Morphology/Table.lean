/-!
# Finite tables

A finite map with a few entries, kept in the order in which its keys first came.

## Main definitions

* `Table` — the entries
* `Table.get?`, `Table.insert`, `Table.alter` — look-up and change at one key

## Main statements

* `Table.get?_insert` — a change is seen at its key and nowhere else
-/

namespace Morphology

universe u v

/-- A finite map from keys to values. -/
structure Table (κ : Type u) (α : Type v) where
  /-- The entries, each key once when built by `insert`. -/
  entries : List (κ × α)
  deriving Repr, DecidableEq

namespace Table

variable {κ : Type u} {α : Type v} [DecidableEq κ]

/-- The table without entries. -/
def empty : Table κ α := ⟨[]⟩

instance : Inhabited (Table κ α) := ⟨empty⟩

/-- The value at a key. -/
def get? (t : Table κ α) (k : κ) : Option α :=
  t.entries.lookup k

/-- Whether a key has a value. -/
def contains (t : Table κ α) (k : κ) : Bool :=
  (t.get? k).isSome

/-- The number of keys. -/
def size (t : Table κ α) : Nat :=
  t.entries.length

/-- Entries with the value at `k` set; a new key comes last. -/
def setEntry (k : κ) (x : α) : List (κ × α) → List (κ × α)
  | [] => [(k, x)]
  | (k', x') :: rest => if k = k' then (k, x) :: rest else (k', x') :: setEntry k x rest

/-- The table with the value at `k` set. -/
def insert (t : Table κ α) (k : κ) (x : α) : Table κ α :=
  ⟨setEntry k x t.entries⟩

/-- The table with the value at `k` changed by `f`, which is given the value there was. -/
def alter (t : Table κ α) (k : κ) (f : Option α → α) : Table κ α :=
  t.insert k (f (t.get? k))

private theorem lookup_setEntry (k k' : κ) (x : α) (es : List (κ × α)) :
    (setEntry k x es).lookup k' = if k' = k then some x else es.lookup k' := by
  induction es with
  | nil =>
    by_cases h : k' = k
    · simp [setEntry, h]
    · simp [setEntry, List.lookup_cons, h, beq_eq_false_iff_ne.2 h]
  | cons e es ih =>
    obtain ⟨k₁, x₁⟩ := e
    by_cases h₁ : k = k₁
    · subst h₁
      by_cases h : k' = k
      · simp [setEntry, h]
      · simp [setEntry, List.lookup_cons, h, beq_eq_false_iff_ne.2 h]
    · by_cases h₂ : k' = k₁
      · subst h₂
        simp [setEntry, h₁, Ne.symm h₁]
      · simp [setEntry, List.lookup_cons, h₁, beq_eq_false_iff_ne.2 h₂, ih]

/-- An insertion is seen at its key and nowhere else. -/
theorem get?_insert (t : Table κ α) (k k' : κ) (x : α) :
    (t.insert k x).get? k' = if k' = k then some x else t.get? k' :=
  lookup_setEntry k k' x t.entries

end Table

end Morphology
