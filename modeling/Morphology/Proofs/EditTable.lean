import Mathlib.Tactic.Common
import Morphology.EditDistance
import Morphology.Proofs.EditDistance

/-!
# The table of edit distances

The table is filled from the top left to the bottom right, and what a cell is computed from has been
filled before.  So no place is asked for that is outside the texts or the table, nothing is taken
from a smaller number, and the last cell has the edit distance.

A front of a text has its last character changed, added or dropped last, while the edit distance
looks at first characters.  The fronts are therefore read from behind.

## Main definitions

* `frontDistance` — the distance of two fronts
* `EditTable.Holds` — some cells of a table have the distances of their fronts
* `EditTable.Before` — the cells that are filled before another

## Main statements

* `frontDistance_succ_succ` — the distance of two fronts comes from those of shorter ones
* `EditTable.Holds.fillCell` — one more cell is filled
* `tableDistance?_eq` — the table gives the edit distance
* `leastEdits_tableDistance` — what the table gives
-/

namespace Morphology

universe u

/-- Steps that succeed one after the other succeed together, and keep what each of them keeps. -/
private theorem exists_foldlM_range' {α : Type u} {P : Nat → α → Prop} {x : α} (hx : P 0 x)
    (step : α → Nat → Option α) (first count : Nat)
    (hstep : ∀ n y, n < count → P n y → ∃ z, step y (first + n) = some z ∧ P (n + 1) z) :
    ∃ z, (List.range' first count).foldlM step x = some z ∧ P count z := by
  induction count with
  | zero => exact ⟨x, rfl, hx⟩
  | succ count ih =>
    obtain ⟨y, hy, hpy⟩ := ih fun n y hn => hstep n y (Nat.lt_succ_of_lt hn)
    obtain ⟨z, hz, hpz⟩ := hstep count y (Nat.lt_succ_self count) hpy
    refine ⟨z, ?_, hpz⟩
    rw [List.range'_1_concat, List.foldlM_append, hy]
    simpa using hz

/-! ## Fronts -/

/-- The distance of the fronts of `i` and `j` characters. -/
def frontDistance (as bs : Array Char) (i j : Nat) : Nat :=
  editDistance (as.toList.take i).reverse (bs.toList.take j).reverse

section

variable {as bs : Array Char} {i j : Nat} {a b : Char}

/-- The longer front has one character more, which comes first from behind. -/
private theorem reverse_take_succ (ha : as[i]? = some a) :
    (as.toList.take (i + 1)).reverse = a :: (as.toList.take i).reverse := by
  rw [List.take_add_one, Array.getElem?_toList, ha]
  simp

/-- From behind the first character of a front is the one before its end. -/
private theorem head?_reverse_take (hi : i ≤ as.size) :
    (as.toList.take i).reverse.head? = if 0 < i then as[i - 1]? else none := by
  rw [List.head?_reverse]
  cases i with
  | zero => rfl
  | succ i =>
    have hlt : i < as.toList.length := hi
    simp [List.getLast?_take, List.getElem?_eq_getElem hlt]

/-- Without it the front is shorter. -/
private theorem tail_reverse_take (hi : i ≤ as.size) :
    (as.toList.take i).reverse.tail = (as.toList.take (i - 1)).reverse := by
  rw [List.tail_reverse]
  cases i with
  | zero => rfl
  | succ i =>
    rw [Nat.add_sub_cancel, List.dropLast_eq_take, List.take_take, List.length_take_of_le hi]
    simp

theorem frontDistance_zero_left (as : Array Char) (hj : j ≤ bs.size) :
    frontDistance as bs 0 j = j := by
  simp [frontDistance, hj]

theorem frontDistance_zero_right (bs : Array Char) (hi : i ≤ as.size) :
    frontDistance as bs i 0 = i := by
  simp [frontDistance, hi]

/-- The distance of the whole texts is that of both in their order. -/
theorem frontDistance_size (as bs : Array Char) :
    frontDistance as bs as.size bs.size = editDistance as.toList bs.toList := by
  have hleast := (leastEdits_editDistance as.toList bs.toList).reverse
  have hall {cs : Array Char} : cs.toList.take cs.size = cs.toList := List.take_length
  rw [frontDistance, hall, hall]
  exact (leastEdits_editDistance _ _).unique hleast

/-- The distance of two fronts comes from those of shorter ones. -/
theorem frontDistance_succ_succ (ha : as[i]? = some a) (hb : bs[j]? = some b) :
    frontDistance as bs (i + 1) (j + 1) =
      (let best := min (min (frontDistance as bs i (j + 1) + 1) (frontDistance as bs (i + 1) j + 1))
        (frontDistance as bs i j + if a = b then 0 else 1)
      if (0 < i ∧ as[i - 1]? = some b) ∧ 0 < j ∧ bs[j - 1]? = some a then
        min best (frontDistance as bs (i - 1) (j - 1) + 1)
      else best) := by
  have hi : i ≤ as.size := Nat.le_of_lt (Array.getElem?_eq_some_iff.1 ha).1
  have hj : j ≤ bs.size := Nat.le_of_lt (Array.getElem?_eq_some_iff.1 hb).1
  simp only [frontDistance, reverse_take_succ ha, reverse_take_succ hb, editDistance_cons_cons,
    head?_reverse_take hi, head?_reverse_take hj, tail_reverse_take hi, tail_reverse_take hj,
    Option.ite_none_right_eq_some]

end

/-! ## Places -/

/-- Cells of different rows or columns are in different places. -/
private theorem place_inj {width i j i' j' : Nat} (hj : j < width) (hj' : j' < width) :
    i * width + j = i' * width + j' ↔ i = i' ∧ j = j' := by
  constructor
  · intro h
    have hrow : i = i' := by
      have := congrArg (· / width) h
      simpa [Nat.mul_comm _ width, Nat.mul_add_div (Nat.zero_lt_of_lt hj), Nat.div_eq_of_lt hj,
        Nat.div_eq_of_lt hj'] using this
    subst hrow
    exact ⟨rfl, by omega⟩
  · rintro ⟨rfl, rfl⟩
    rfl

/-- No cell is behind the last one. -/
private theorem place_lt {rows width i j : Nat} (hi : i < rows) (hj : j < width) :
    i * width + j < rows * width := by
  calc i * width + j < i * width + width := Nat.add_lt_add_left hj _
    _ = (i + 1) * width := by rw [Nat.add_mul, Nat.one_mul]
    _ ≤ rows * width := Nat.mul_le_mul_right width hi

/-! ## Cells -/

namespace EditTable

variable {as bs : Array Char} {t : EditTable} {known known' : Nat → Nat → Prop} {i j : Nat}

/-- A table of the right size has the distances of the fronts that are known. -/
structure Holds (as bs : Array Char) (t : EditTable) (known : Nat → Nat → Prop) : Prop where
  width : t.width = bs.size + 1
  size : t.cells.size = (as.size + 1) * (bs.size + 1)
  cell : ∀ i j, i ≤ as.size → j ≤ bs.size → known i j →
    t.cells[i * t.width + j]? = some (frontDistance as bs i j)

theorem Holds.mono (h : Holds as bs t known)
    (himp : ∀ i j, i ≤ as.size → j ≤ bs.size → known' i j → known i j) :
    Holds as bs t known' where
  width := h.width
  size := h.size
  cell := fun i j hi hj hknown => h.cell i j hi hj (himp i j hi hj hknown)

/-- A table of zeros holds nothing yet. -/
theorem holds_zeros (as bs : Array Char) :
    Holds as bs (zeros (as.size + 1) (bs.size + 1)) fun _ _ => False where
  width := rfl
  size := Array.size_replicate
  cell := fun _ _ _ _ hknown => hknown.elim

/-- A distance is `put?` into its cell, which the table has, and the other cells stay. -/
theorem Holds.put (h : Holds as bs t known) (hi : i ≤ as.size) (hj : j ≤ bs.size)
    (known' : Nat → Nat → Prop) (himp : ∀ i' j', known' i' j' → known i' j' ∨ i' = i ∧ j' = j) :
    ∃ t', t.put? (i * t.width + j) (frontDistance as bs i j) = some t' ∧
      Holds as bs t' known' := by
  have hplace : i * t.width + j < t.cells.size := by
    rw [h.size, h.width]
    exact place_lt (Nat.lt_succ_of_le hi) (Nat.lt_succ_of_le hj)
  refine ⟨_, if_pos hplace, h.width, ?_, fun i' j' hi' hj' hknown => ?_⟩
  · rw [Array.size_setIfInBounds, h.size]
  · have hsame : i * t.width + j = i' * t.width + j' ↔ i = i' ∧ j = j' := by
      rw [h.width]
      exact place_inj (Nat.lt_succ_of_le hj) (Nat.lt_succ_of_le hj')
    -- Two cells have one place in the table only if they are the same.
    by_cases heq : i = i' ∧ j = j'
    · obtain ⟨rfl, rfl⟩ := heq
      exact Array.getElem?_setIfInBounds_self_of_lt hplace
    · rw [Array.getElem?_setIfInBounds_ne fun hplaces => heq (hsame.1 hplaces)]
      apply h.cell i' j' hi' hj'
      refine (himp i' j' hknown).resolve_right ?_
      rintro ⟨rfl, rfl⟩
      exact heq ⟨rfl, rfl⟩

/-! ## Filling the table -/

/-- The cells that are filled before those of a row from a column on: the first column, the rows
above, and the front of the row. -/
def Before (row column i j : Nat) : Prop :=
  j = 0 ∨ i < row ∨ i = row ∧ j < column

/-- `borders?` gives the cells of the borders the distances to the empty front. -/
theorem Holds.borders (h : Holds as bs t fun _ _ => False) :
    ∃ t', t.borders? as.size bs.size = some t' ∧ Holds as bs t' (Before 0 (bs.size + 1)) := by
  -- First the column, then the row.
  obtain ⟨t₁, ht₁, h₁⟩ := exists_foldlM_range'
    (P := fun n t => Holds as bs t fun i j => j = 0 ∧ i < n)
    (h.mono fun i j _ _ hknown => by omega) (fun t i => t.put? (i * t.width) i) 0 (as.size + 1)
    (by
      intro n t hn ht
      have hput := ht.put (i := n) (j := 0) (by omega) (Nat.zero_le _)
        (fun i j => j = 0 ∧ i < n + 1) (by omega)
      rw [Nat.zero_add]
      rwa [frontDistance_zero_right bs (by omega)] at hput)
  obtain ⟨t₂, ht₂, h₂⟩ := exists_foldlM_range' (P := fun n t => Holds as bs t (Before 0 n))
    -- Filling the row keeps the column, which has its first cell in common with it.
    (h₁.mono fun i j hi _ hknown => by unfold Before at hknown; omega)
    (fun t j => t.put? j j) 0 (bs.size + 1)
    (by
      intro n t hn ht
      have hput := ht.put (i := 0) (j := n) (Nat.zero_le _) (by omega) (Before 0 (n + 1))
        (by unfold Before; omega)
      rw [Nat.zero_add]
      rwa [frontDistance_zero_left as (by omega), Nat.zero_mul, Nat.zero_add] at hput)
  refine ⟨t₂, ?_, h₂⟩
  rw [borders?, List.range_eq_range', List.range_eq_range', ht₁]
  exact ht₂

/-- A swap at the end of two fronts is looked for where there are two characters in both. -/
theorem Holds.swapped (h : Holds as bs t known) {a b : Char} (hi : i < as.size) (hj : j < bs.size)
    (hknown : known (i - 1) (j - 1)) (best : Nat) :
    t.swapped? as bs (i + 1) (j + 1) a b best =
      some (if (0 < i ∧ as[i - 1]? = some b) ∧ 0 < j ∧ bs[j - 1]? = some a then
        min best (frontDistance as bs (i - 1) (j - 1) + 1) else best) := by
  unfold swapped?
  -- A swap needs two characters in front on both sides.
  by_cases htwo : 0 < i ∧ 0 < j
  · obtain ⟨hi₀, hj₀⟩ := htwo
    have hcell := h.cell (i - 1) (j - 1) (by omega) (by omega) hknown
    have hplace : (i - 1) * t.width + (j + 1) - 2 = (i - 1) * t.width + (j - 1) := by omega
    have ha : as[i - 1]? = some as[i - 1] := Array.getElem?_eq_getElem (by omega)
    have hb : bs[j - 1]? = some bs[j - 1] := Array.getElem?_eq_getElem (by omega)
    have hguard : 2 ≤ (i - 1) * t.width + (j + 1) := by omega
    simp only [difference?, show 2 ≤ i + 1 by omega, show 2 ≤ j + 1 by omega, hguard, hplace, hcell,
      ha, hb, hi₀, hj₀, if_true, decide_true, Bool.and_self, true_and, Option.bind_eq_bind,
      Option.bind_some, Nat.lt_add_left_iff_pos, show i + 1 - 2 = i - 1 by omega,
      show j + 1 - 2 = j - 1 by omega, Option.some.injEq, Option.pure_def]
    -- Both guards compare the same characters, in the opposite order.
    by_cases hswap : as[i - 1] = b ∧ bs[j - 1] = a
    · rw [if_pos hswap, if_pos ⟨hswap.2.symm, hswap.1⟩]
    · rw [if_neg hswap, if_neg fun hswap' => hswap ⟨hswap'.2, hswap'.1.symm⟩]
  · rw [if_neg (by simpa using htwo), if_neg (by tauto)]

/-- One more cell is filled: `fillCell?` finds in the table all that `frontDistance` is computed
from. -/
theorem Holds.fillCell (hi : i < as.size) (hj : j < bs.size)
    (h : Holds as bs t (Before (i + 1) (j + 1))) :
    ∃ t', t.fillCell? as bs (i + 1) (j + 1) = some t' ∧
      Holds as bs t' (Before (i + 1) (j + 2)) := by
  have ha : as[i]? = some as[i] := Array.getElem?_eq_getElem hi
  have hb : bs[j]? = some bs[j] := Array.getElem?_eq_getElem hj
  -- The cells above, to the left, and above the latter.
  have hi' := Nat.le_of_lt hi
  have hj' := Nat.le_of_lt hj
  have hdeleted := h.cell i (j + 1) hi' hj (.inr (.inl (Nat.lt_succ_self i)))
  have hinserted := h.cell (i + 1) j hi hj' (.inr (.inr ⟨rfl, Nat.lt_succ_self j⟩))
  have hkept := h.cell i j hi' hj' (.inr (.inl (Nat.lt_succ_self i)))
  have hswapped := h.swapped (a := as[i]) (b := bs[j]) hi hj (.inr (.inl (by omega)))
  have hput := h.put (i := i + 1) (j := j + 1) hi hj (Before (i + 1) (j + 2))
    (by unfold Before; omega)
  -- The distance of two fronts comes from those of the shorter ones.
  rw [frontDistance_succ_succ ha hb] at hput
  have hguard (row : Nat) : 1 ≤ row * t.width + (j + 1) := by omega
  have hleft (row : Nat) : row * t.width + (j + 1) - 1 = row * t.width + j := by omega
  simpa only [fillCell?, difference?, Nat.le_add_left, if_true, Nat.add_sub_cancel, hguard, hleft,
    ha, hb, hdeleted, hinserted, hkept, hswapped, Option.bind_eq_bind, Option.bind_some] using hput

/-- One more row is filled. -/
theorem Holds.fillRow (hi : i < as.size) (h : Holds as bs t (Before (i + 1) 0)) :
    ∃ t', t.fillRow? as bs (i + 1) = some t' ∧ Holds as bs t' (Before (i + 2) 0) := by
  obtain ⟨t', ht', h'⟩ := exists_foldlM_range'
    (P := fun n t => Holds as bs t (Before (i + 1) (n + 1)))
    (h.mono fun i' j' _ _ hknown => by unfold Before at hknown ⊢; omega)
    (fun t j => t.fillCell? as bs (i + 1) j) 1 bs.size
    (by
      intro n t hn ht
      rw [Nat.add_comm 1 n]
      exact ht.fillCell hi hn)
  exact ⟨t', ht', h'.mono fun i' j' _ hj' hknown => by unfold Before at hknown ⊢; omega⟩

end EditTable

/-! ## The distance -/

/-- The table gives the edit distance, and `tableDistance?` never meets a cell that is missing. -/
theorem tableDistance?_eq (as bs : Array Char) :
    tableDistance? as bs = some (editDistance as.toList bs.toList) := by
  unfold tableDistance?
  split
  · rename_i hnone
    obtain rfl := Array.isEmpty_iff.1 hnone
    simp
  split
  · rename_i hnone
    obtain rfl := Array.isEmpty_iff.1 hnone
    simp
  -- First the borders, and then one row after the other.
  obtain ⟨t₁, ht₁, h₁⟩ := (EditTable.holds_zeros as bs).borders
  obtain ⟨t₂, ht₂, h₂⟩ := exists_foldlM_range'
    (P := fun n t => EditTable.Holds as bs t (EditTable.Before (n + 1) 0))
    (h₁.mono fun i j _ hj hknown => by unfold EditTable.Before at hknown ⊢; omega)
    (fun t i => t.fillRow? as bs i) 1 as.size
    (by
      intro n t hn ht
      rw [Nat.add_comm 1 n]
      exact ht.fillRow hn)
  -- The last cell belongs to both texts as a whole.
  have hlast := h₂.cell as.size bs.size (Nat.le_refl _) (Nat.le_refl _)
    (.inr (.inl (Nat.lt_succ_self _)))
  rw [frontDistance_size] at hlast
  rw [ht₁, Option.bind_eq_bind, Option.bind_some, ht₂, Option.bind_some, hlast]

/-- **Edit distances.**  `tableDistance?` gives a distance for all texts. It is the `editDistance`,
the least number of deletions, insertions, substitutions and swaps of neighbours in which no
character is edited twice (`LeastEdits`). It is the same in both directions, zero for equal texts
only, and between the difference of the lengths and the greater length. -/
theorem leastEdits_tableDistance (as bs : Array Char) :
    ∃ n, tableDistance? as bs = some n ∧ editDistance as.toList bs.toList = n ∧
      LeastEdits as.toList bs.toList n ∧ tableDistance? bs as = some n ∧ (n = 0 ↔ as = bs) ∧
      max as.size bs.size - min as.size bs.size ≤ n ∧ n ≤ max as.size bs.size := by
  have hleast := leastEdits_editDistance as.toList bs.toList
  have hback : tableDistance? bs as = some (editDistance as.toList bs.toList) := by
    rw [tableDistance?_eq, hleast.symm.unique (leastEdits_editDistance bs.toList as.toList)]
  refine ⟨_, tableDistance?_eq as bs, rfl, hleast, hback, ?_, hleast.bounds⟩
  rw [hleast.eq_zero_iff]
  exact Array.toList_inj

example : tableDistance? #['c', 'a'] #['a', 'b', 'c'] = some 3 := by
  decide

end Morphology
