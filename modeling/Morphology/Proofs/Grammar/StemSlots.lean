import Mathlib.Data.List.Induction
import Mathlib.Data.List.Nodup
import Morphology.Grammar.Lexeme
import Morphology.Proofs.Pattern.Substitution
import Morphology.Proofs.Text.Replacement

/-!
# Stem slots

The stems of a lexeme stand in numbered slots.  A stem conversion fills the slots without stems, and
merging turns the table round: it lists the stems, each with the slots in which it stands.  Neither
loses or moves a stem.

## Main definitions

* `Slots.IsOf` — the slots as a stem writes them
* `Slots.stemsAt` — the stems of a slot
* `Slots.occurrences` — every stem of every slot, with the number of the slot
* `Replacement.Rewrites`, `Replacement.Rewritten` — what one replacement makes of a stem, and what
  several do
* `StemConversion.Completes` — what a conversion does with slots

## Main statements

* `Slots.isOf_iff` — `Slots.read` gives the slots that are written
* `Slots.map_fst_merge` — every stem is listed once, where it first stands
* `Slots.mem_stemNums_iff` — a stem comes with the slots in which it stands
* `StemConversion.stemsAt_foldl_fill` — a slot is filled by the first of its replacements
* `StemConversion.completes_convert` — a conversion fills the slots without stems, once and for all
-/

namespace Morphology

universe u

/-! ## Sets of numbers -/

theorem mem_insertNumber {n k : Nat} {set : List Nat} :
    k ∈ insertNumber n set ↔ k = n ∨ k ∈ set := by
  induction set with
  | nil => simp [insertNumber]
  | cons m rest ih =>
    -- The number is smaller than the first of the set, the same, or larger.
    rw [insertNumber]
    split
    · simp
    · split
      · rename_i heq
        simp [heq]
      · rw [List.mem_cons, ih, List.mem_cons]
        exact or_left_comm

theorem mem_numberSet {k : Nat} {ns : List Nat} : k ∈ numberSet ns ↔ k ∈ ns := by
  have hfold (set : List Nat) : k ∈ ns.foldl (fun set n => insertNumber n set) set ↔
      k ∈ ns ∨ k ∈ set := by
    induction ns generalizing set with
    | nil => simp
    | cons n ns ih =>
      rw [List.foldl_cons, ih, mem_insertNumber, List.mem_cons]
      exact or_left_comm.trans or_assoc.symm
  simpa [numberSet] using hfold []

theorem pairwise_insertNumber {n : Nat} {set : List Nat} (h : set.Pairwise (· < ·)) :
    (insertNumber n set).Pairwise (· < ·) := by
  induction set with
  | nil => simp [insertNumber]
  | cons m rest ih =>
    obtain ⟨hm, hrest⟩ := List.pairwise_cons.1 h
    rw [insertNumber]
    split
    · -- The new number is the least.
      rename_i hlt
      refine List.pairwise_cons.2 ⟨fun k hk => ?_, h⟩
      rcases List.mem_cons.1 hk with rfl | hk
      · exact hlt
      · exact Nat.lt_trans hlt (hm k hk)
    · split
      · exact h
      · -- It comes behind the first, which stays the least.
        refine List.pairwise_cons.2 ⟨fun k hk => ?_, ih hrest⟩
        rcases mem_insertNumber.1 hk with rfl | hk
        · omega
        · exact hm k hk

/-- A set of numbers is in ascending order. -/
theorem pairwise_numberSet (ns : List Nat) : (numberSet ns).Pairwise (· < ·) := by
  have hfold (set : List Nat) (h : set.Pairwise (· < ·)) :
      (ns.foldl (fun set n => insertNumber n set) set).Pairwise (· < ·) := by
    induction ns generalizing set with
    | nil => exact h
    | cons n ns ih => exact ih _ (pairwise_insertNumber h)
  exact hfold [] List.Pairwise.nil

/-- A relation that is a function relates a list to its image. -/
theorem forall₂_iff_eq_map {α β : Type u} {R : α → β → Prop} {f : α → β}
    (h : ∀ x y, R x y ↔ y = f x) {xs : List α} {ys : List β} :
    List.Forall₂ R xs ys ↔ ys = xs.map f := by
  induction xs generalizing ys with
  | nil => exact List.forall₂_nil_left_iff
  | cons x xs ih => simp [List.forall₂_cons_left_iff, h, ih]

namespace Slots

variable {slots : Slots} {stem : String} {n : Nat}

/-! ## Written slots -/

/-- The stems of a slot as it is written: between the `|` are its variants, of which the blanks
around them are no part, and those that are empty then are no stems. -/
def IsSlot (written : List Char) (stems : List String) : Prop :=
  ∃ variants trimmed, Text.IsSplit ['|'] written variants ∧
    List.Forall₂ (Text.IsTrimmed Text.isBlank) variants trimmed ∧
    stems = (trimmed.filter (· ≠ [])).map String.ofList

/-- The slots as a stem writes them, with `//` between one and the next. -/
def IsOf (stem : String) (slots : Slots) : Prop :=
  ∃ parts, Text.IsSplit "//".toList stem.toList parts ∧ List.Forall₂ IsSlot parts slots

theorem isSlot_iff (written : List Char) (stems : List String) : IsSlot written stems ↔
    stems = ((Text.splitOn ['|'] written).map fun s =>
      String.ofList (Text.trimBoth Text.isBlank s)).filter (!·.isEmpty) := by
  -- A variant is empty when nothing is left of it without blanks.
  have hempty (variant : List Char) :
      (!(String.ofList (Text.trimBoth Text.isBlank variant)).isEmpty) =
        decide (Text.trimBoth Text.isBlank variant ≠ []) := by
    rw [decide_not, Bool.not_inj_iff, Bool.eq_iff_iff, String.isEmpty_iff]
    simp
  have htrimmed (variant t : List Char) : Text.IsTrimmed Text.isBlank variant t ↔
      t = Text.trimBoth Text.isBlank variant := Text.isTrimmed_iff
  simp only [IsSlot, Text.isSplit_iff (List.cons_ne_nil '|' []), forall₂_iff_eq_map htrimmed,
    exists_and_left, exists_eq_left, List.filter_map, List.map_map, Function.comp_def, hempty]

/-- `Slots.read` gives the slots that are written, and there are no others. -/
theorem isOf_iff {stem : String} {slots : Slots} : IsOf stem slots ↔ slots = read stem := by
  simp only [IsOf, Text.isSplit_iff (show "//".toList ≠ [] by decide), exists_eq_left,
    forall₂_iff_eq_map isSlot_iff]
  rfl

/-! ## Stems and their slots -/

/-- The stems of a slot; a slot that there is not has none. -/
def stemsAt (slots : Slots) (n : Nat) : List String :=
  (slots[n]?).getD []

theorem getElem?_eq_of_stemsAt {stems : List String} (h : slots.stemsAt n = stems)
    (hne : stems ≠ []) : slots[n]? = some stems := by
  rw [stemsAt] at h
  cases hslot : slots[n]? with
  | none => exact absurd (by simpa [hslot] using h.symm) hne
  | some own => simpa [hslot] using h

/-- Every stem of every slot, with the number of the slot. -/
def occurrences (slots : Slots) : List (String × Nat) :=
  slots.zipIdx.flatMap fun (stems, slot) => stems.map (·, slot)

theorem map_fst_occurrences (slots : Slots) : slots.occurrences.map (·.1) = slots.flatten := by
  rw [occurrences, List.map_flatMap]
  calc slots.zipIdx.flatMap (fun e => (e.1.map (·, e.2)).map (·.1))
    _ = slots.zipIdx.flatMap (·.1) := by simp [Function.comp_def]
    _ = (slots.zipIdx.map (·.1)).flatten := rfl
    _ = slots.flatten := by rw [List.zipIdx_map_fst]

theorem mem_occurrences_iff : (stem, n) ∈ slots.occurrences ↔
    ∃ stems, slots[n]? = some stems ∧ stem ∈ stems := by
  simp only [occurrences, List.mem_flatMap, List.mem_map, Prod.exists,
    List.mem_zipIdx_iff_getElem?, Prod.mk.injEq]
  constructor
  · rintro ⟨stems, slot, hslot, s, hs, rfl, rfl⟩
    exact ⟨stems, hslot, hs⟩
  · rintro ⟨stems, hslot, hs⟩
    exact ⟨stems, n, hslot, stem, hs, rfl, rfl⟩

theorem merge_eq_foldl (slots : Slots) :
    merge slots = slots.occurrences.foldl (fun merged o => mergeStem o.2 o.1 merged) [] := by
  simp [merge, occurrences, List.foldl_flatMap, List.foldl_map]

/-! ### One stem more -/

theorem map_fst_mergeStem (n : Nat) (stem : String) (merged : List (String × List Nat)) :
    (mergeStem n stem merged).map (·.1) =
      if stem ∈ merged.map (·.1) then merged.map (·.1) else merged.map (·.1) ++ [stem] := by
  induction merged with
  | nil => rfl
  | cons first rest ih =>
    obtain ⟨s, slots⟩ := first
    rw [mergeStem]
    -- The entry of the stem is the first one, or it is further behind.
    by_cases hs : s = stem
    · simp [hs]
    · rw [if_neg hs, List.map_cons, ih]
      by_cases hmem : stem ∈ rest.map (·.1)
      · simp [hmem]
      · simp [hmem, Ne.symm hs]

/-- A stem's entry has one more slot, or is new; the other entries stay. -/
theorem of_mem_mergeStem {merged : List (String × List Nat)} {entry : String × List Nat}
    (hnodup : (merged.map (·.1)).Nodup) (h : entry ∈ mergeStem n stem merged) :
    (entry ∈ merged ∧ entry.1 ≠ stem) ∨
      (∃ slots, (stem, slots) ∈ merged ∧ entry = (stem, insertNumber n slots)) ∨
      (stem ∉ merged.map (·.1) ∧ entry = (stem, [n])) := by
  induction merged with
  | nil => exact .inr (.inr ⟨List.not_mem_nil, List.mem_singleton.1 h⟩)
  | cons first rest ih =>
    obtain ⟨s, slots⟩ := first
    obtain ⟨hs, hrest⟩ := List.nodup_cons.1 hnodup
    rw [mergeStem] at h
    split at h
    · -- The first entry is that of the stem; the others are of other stems.
      rename_i heq
      obtain rfl : s = stem := heq
      rcases List.mem_cons.1 h with rfl | hmem
      · exact .inr (.inl ⟨slots, List.mem_cons_self .., rfl⟩)
      · refine .inl ⟨List.mem_cons_of_mem _ hmem, ?_⟩
        -- An entry of the same stem would be there twice.
        rintro rfl
        exact hs (List.mem_map.2 ⟨entry, hmem, rfl⟩)
    · rename_i hne
      -- The first entry is of another stem, and stays.
      rcases List.mem_cons.1 h with rfl | h
      · exact .inl ⟨List.mem_cons_self .., hne⟩
      · rcases ih hrest h with ⟨hmem, hentry⟩ | ⟨slots', hmem, rfl⟩ | ⟨hnew, rfl⟩
        · exact .inl ⟨List.mem_cons_of_mem _ hmem, hentry⟩
        · exact .inr (.inl ⟨slots', List.mem_cons_of_mem _ hmem, rfl⟩)
        · refine .inr (.inr ⟨?_, rfl⟩)
          rw [List.map_cons, List.mem_cons, not_or]
          exact ⟨Ne.symm hne, hnew⟩

/-- The entries of the stems met so far. -/
private structure Merges (met : List (String × Nat)) (merged : List (String × List Nat)) :
    Prop where
  nodup : (merged.map (·.1)).Nodup
  stems : merged.map (·.1) = (met.map (·.1)).eraseDups
  slots : ∀ entry ∈ merged, entry.2.Pairwise (· < ·) ∧ ∀ n, n ∈ entry.2 ↔ (entry.1, n) ∈ met

private theorem Merges.mergeStem {met : List (String × Nat)} {merged : List (String × List Nat)}
    (h : Merges met merged) (stem : String) (n : Nat) :
    Merges (met ++ [(stem, n)]) (mergeStem n stem merged) := by
  -- The stems with an entry are those met so far.
  have hmem : stem ∈ merged.map (·.1) ↔ stem ∈ met.map (·.1) := by
    rw [h.stems, List.mem_eraseDups]
  refine ⟨?_, ?_, fun entry hentry => ?_⟩
  · rw [map_fst_mergeStem]
    split
    · exact h.nodup
    · rename_i hnew
      simpa using h.nodup.concat hnew
  · -- The stem is new just if it was not met.
    rw [map_fst_mergeStem, List.map_append, List.eraseDups_append, ← h.stems]
    by_cases hstem : stem ∈ met.map (·.1)
    · rw [if_pos (hmem.2 hstem)]
      simp [List.removeAll, hstem]
    · rw [if_neg (mt hmem.1 hstem)]
      simp [List.removeAll, hstem, List.eraseDups_cons]
  · -- The entry is one of before, or it has the slot just met, besides others or alone.
    rcases of_mem_mergeStem h.nodup hentry with ⟨hold, hne⟩ | ⟨slots, hold, rfl⟩ | ⟨hnew, rfl⟩
    · obtain ⟨hsorted, hslots⟩ := h.slots entry hold
      refine ⟨hsorted, fun k => ?_⟩
      simp [hslots k, hne]
    · obtain ⟨hsorted, hslots⟩ := h.slots _ hold
      refine ⟨pairwise_insertNumber hsorted, fun k => ?_⟩
      rw [mem_insertNumber, hslots k, List.mem_append, List.mem_singleton, Prod.mk.injEq, or_comm]
      simp
    · refine ⟨List.pairwise_singleton _ _, fun k => ?_⟩
      -- What was not met before is in no slot yet.
      have hnone : (stem, k) ∉ met := fun h => hnew (hmem.2 (List.mem_map_of_mem h))
      simp [hnone]

private theorem merges_merge (slots : Slots) : Merges slots.occurrences (merge slots) := by
  rw [merge_eq_foldl]
  induction slots.occurrences using List.reverseRecOn with
  | nil => exact ⟨List.nodup_nil, rfl, fun _ h => absurd h List.not_mem_nil⟩
  | append_singleton met o ih =>
    rw [List.foldl_append]
    exact ih.mergeStem o.1 o.2

/-- Every stem is listed once, in the order in which the stems first come. -/
theorem map_fst_merge (slots : Slots) : (merge slots).map (·.1) = slots.flatten.eraseDups := by
  rw [(merges_merge slots).stems, map_fst_occurrences]

/-- A stem comes with the slots in which it stands, in ascending order. -/
theorem mem_stemNums_iff {stemNums : List Nat} (h : (stem, stemNums) ∈ merge slots) :
    stemNums.Pairwise (· < ·) ∧
      ∀ n, n ∈ stemNums ↔ ∃ stems, slots[n]? = some stems ∧ stem ∈ stems := by
  obtain ⟨hsorted, hslots⟩ := (merges_merge slots).slots _ h
  exact ⟨hsorted, fun n => (hslots n).trans mem_occurrences_iff⟩

example : merge [["a."], ["b."], ["a."]] = [("a.", [0, 2]), ("b.", [1])] := by
  decide

end Slots

/-! ## Conversion -/

/-- The first entry of a key, whether or not the others are there. -/
theorem lookup_eq_head?_filter {α : Type u} (k : Nat) (entries : List (Nat × α)) :
    entries.lookup k = ((entries.filter (k == ·.1)).head?).map (·.2) := by
  induction entries with
  | nil => rfl
  | cons e rest ih =>
    rw [List.lookup_cons, List.filter_cons]
    cases k == e.1 <;> simp [ih]

/-- Entries of the same key stay in order when all are sorted. -/
theorem lookup_mergeSort {α : Type u} (k : Nat) (entries : List (Nat × α)) :
    (entries.mergeSort fun s t => s.1 ≤ t.1).lookup k = entries.lookup k := by
  -- What is left of the entries are those of the key.
  have hkey (e : Nat × α) (he : e ∈ entries.filter (k == ·.1)) : e.1 = k := by
    exact (beq_iff_eq.1 (List.mem_filter.1 he).2).symm
  -- They are in order as they are, so sorting keeps them as they stand.
  have hsorted : (entries.filter (k == ·.1)).Pairwise fun s t => decide (s.1 ≤ t.1) = true := by
    refine List.pairwise_of_forall_mem_list fun s hs t ht => ?_
    rw [hkey s hs, hkey t ht]
    exact decide_eq_true (Nat.le_refl k)
  have hsub := (List.sublist_mergeSort (fun _ _ _ => by simpa using Nat.le_trans)
    (fun a b => by simpa using Nat.le_total a.1 b.1) hsorted List.filter_sublist).filter (k == ·.1)
  rw [List.filter_filter] at hsub
  simp only [Bool.and_self] at hsub
  -- Sorting loses none of them.
  have hlength := ((List.mergeSort_perm entries fun s t => s.1 ≤ t.1).filter (k == ·.1)).length_eq
  rw [lookup_eq_head?_filter, lookup_eq_head?_filter, hsub.eq_of_length hlength.symm]

/-- A replacement makes one stem of another: every match of its pattern gives way to what its text
stands for there. -/
def Replacement.Rewrites (r : Replacement) (stem new : String) : Prop :=
  Pattern.Replaced r.pattern r.text.toList stem.toList [] (r.pattern.findAll stem.toList)
    stem.toList new.toList

/-- What several replacements make of a stem, one after the other. -/
inductive Replacement.Rewritten : List Replacement → String → String → Prop
  | nil (stem : String) : Rewritten [] stem stem
  | cons {r : Replacement} {rest : List Replacement} {stem mid new : String}
      (h : r.Rewrites stem mid) (hrest : Rewritten rest mid new) : Rewritten (r :: rest) stem new

theorem Replacement.rewrites_apply (r : Replacement) (stem : String) :
    r.Rewrites stem (r.apply stem) :=
  Pattern.replaced_replaceAll r.pattern r.text stem

theorem Replacement.rewritten_foldl (replacements : List Replacement) (stem : String) :
    Rewritten replacements stem (replacements.foldl (fun s r => r.apply s) stem) := by
  induction replacements generalizing stem with
  | nil => exact .nil stem
  | cons r rest ih => exact .cons (r.rewrites_apply stem) (ih (r.apply stem))

namespace StemConversion

open Slots (stemsAt)

variable {base : List String} {slots : Slots} {target : Nat × List Replacement} {n : Nat}

/-- The stems with all replacements made, one after the other. -/
def rewrite (replacements : List Replacement) (stems : List String) : List String :=
  stems.map fun stem => replacements.foldl (fun s r => r.apply s) stem

theorem rewritten_rewrite (replacements : List Replacement) (stems : List String) :
    List.Forall₂ (Replacement.Rewritten replacements) stems (rewrite replacements stems) := by
  rw [rewrite, List.forall₂_map_right_iff, List.forall₂_same]
  exact fun stem _ => Replacement.rewritten_foldl replacements stem

/-! ### One slot filled -/

theorem length_fill (base : List String) (slots : Slots) (target : Nat × List Replacement) :
    (fill base slots target).length = max slots.length (target.1 + 1) := by
  obtain ⟨slot, replacements⟩ := target
  unfold fill
  dsimp only
  split
  · rw [List.length_set, List.length_append, List.length_replicate]
    omega
  · rw [List.length_append, List.length_replicate]
    omega

/-- Only a slot without stems is filled. -/
theorem stemsAt_fill (base : List String) (slots : Slots) (slot : Nat)
    (replacements : List Replacement) (n : Nat) :
    stemsAt (fill base slots (slot, replacements)) n =
      if n = slot ∧ stemsAt slots slot = [] then rewrite replacements base
      else stemsAt slots n := by
  -- Slots that come into being have no stems.
  have hpad (n : Nat) : stemsAt (slots ++ List.replicate (slot + 1 - slots.length) []) n =
      stemsAt slots n := by
    unfold stemsAt
    rw [List.getElem?_append]
    split
    · rfl
    · rename_i hlt
      rw [List.getElem?_replicate, List.getElem?_eq_none (Nat.not_lt.1 hlt)]
      split <;> rfl
  -- Now the target is one of the slots.
  have hslot : slot < (slots ++ List.replicate (slot + 1 - slots.length) []).length := by
    rw [List.length_append, List.length_replicate]
    omega
  have hempty : ((slots ++ List.replicate (slot + 1 - slots.length) [])[slot]?).any (·.isEmpty) =
      true ↔ stemsAt slots slot = [] := by
    rw [← hpad slot, stemsAt, List.getElem?_eq_getElem hslot]
    simp
  unfold fill
  dsimp only
  split
  · -- The target has no stems and is filled.
    rename_i hfree
    rw [hempty] at hfree
    by_cases hn : n = slot
    · rw [if_pos ⟨hn, hfree⟩, stemsAt, hn, List.getElem?_set_self hslot]
      rfl
    · rw [if_neg fun h => hn h.1, stemsAt, List.getElem?_set_ne (Ne.symm hn)]
      exact hpad n
  · -- The target has stems and stays.
    rename_i hfree
    rw [hempty] at hfree
    rw [if_neg fun h => hfree h.2]
    exact hpad n

theorem fill_eq_self (base : List String) (h : stemsAt slots target.1 ≠ []) :
    fill base slots target = slots := by
  have hslot := Slots.getElem?_eq_of_stemsAt rfl h
  have hlt : target.1 < slots.length := (List.getElem?_eq_some_iff.1 hslot).1
  unfold fill
  dsimp only
  rw [Nat.sub_eq_zero_of_le hlt, List.replicate_zero, List.append_nil, if_neg]
  rw [hslot]
  simpa using h

/-! ### All slots filled -/

/-- A slot is filled by the first of its replacements, since it has stems from then on. -/
theorem stemsAt_foldl_fill (hbase : base ≠ []) (targets : List (Nat × List Replacement))
    (slots : Slots) (n : Nat) : stemsAt (targets.foldl (fill base) slots) n =
      if stemsAt slots n = [] then (targets.lookup n).elim [] (rewrite · base)
      else stemsAt slots n := by
  -- What a slot is filled with is not empty, since the base slot is not.
  have hne (replacements : List Replacement) : rewrite replacements base ≠ [] := by
    simpa [rewrite] using hbase
  induction targets generalizing slots with
  | nil =>
    by_cases hempty : stemsAt slots n = []
    · simp [hempty]
    · simp [hempty]
  | cons target rest ih =>
    obtain ⟨slot, replacements⟩ := target
    rw [List.foldl_cons, ih, stemsAt_fill, List.lookup_cons]
    by_cases hn : n = slot
    · -- The first replacements for the slot fill it, and later ones find stems.
      subst hn
      by_cases hempty : stemsAt slots n = []
      · simp [hempty, hne]
      · simp [hempty]
    · simp [hn, beq_eq_false_iff_ne.2 hn]

theorem lt_length_foldl_fill (base : List String) (targets : List (Nat × List Replacement))
    (slots : Slots) (n : Nat) : n < (targets.foldl (fill base) slots).length ↔
      n < slots.length ∨ ∃ target ∈ targets, n ≤ target.1 := by
  induction targets generalizing slots with
  | nil => simp
  | cons target rest ih =>
    have hmax : n < max slots.length (target.1 + 1) ↔ n < slots.length ∨ n ≤ target.1 := by omega
    rw [List.foldl_cons, ih, length_fill, List.exists_mem_cons_iff, hmax, or_assoc]

theorem foldl_fill_eq_self (base : List String) {targets : List (Nat × List Replacement)}
    (h : ∀ target ∈ targets, stemsAt slots target.1 ≠ []) :
    targets.foldl (fill base) slots = slots := by
  induction targets with
  | nil => rfl
  | cons target rest ih =>
    obtain ⟨htarget, hrest⟩ := List.forall_mem_cons.1 h
    rw [List.foldl_cons, fill_eq_self base htarget]
    exact ih hrest

variable {c : StemConversion}

theorem convert_of_base (hbase : slots[c.base]? = some base) (hne : base ≠ []) :
    c.convert slots = (c.targets.mergeSort fun s t => s.1 ≤ t.1).foldl (fill base) slots := by
  unfold convert
  rw [hbase]
  split
  · rename_i h
    exact absurd h (by simp)
  · rename_i h
    exact absurd (Option.some.inj h) hne
  · rename_i h
    rw [Option.some.inj h]

theorem convert_of_empty (hbase : stemsAt slots c.base = []) : c.convert slots = slots := by
  unfold convert
  split
  · rfl
  · rfl
  · rename_i base hne h
    rw [stemsAt, h] at hbase
    obtain rfl : base = [] := hbase
    exact absurd rfl hne

/-- What a conversion does with slots: those with stems stay, and if the base slot has stems then
every other target gets them, each `Rewritten` by the first replacements given for it.  Doing it
again changes nothing. -/
structure Completes (c : StemConversion) (slots converted : Slots) : Prop where
  kept : ∀ (n : Nat) stems, slots[n]? = some stems → stems ≠ [] → converted[n]? = some stems
  filled : ∀ base, slots[c.base]? = some base → base ≠ [] → ∀ n replacements,
    c.targets.lookup n = some replacements → stemsAt slots n = [] →
      ∃ stems, converted[n]? = some stems ∧
        List.Forall₂ (Replacement.Rewritten replacements) base stems
  others : ∀ n, c.targets.lookup n = none → stemsAt converted n = stemsAt slots n
  length : ∀ base, slots[c.base]? = some base → base ≠ [] → ∀ n,
    n < converted.length ↔ n < slots.length ∨ ∃ target ∈ c.targets, n ≤ target.1
  idle : stemsAt slots c.base = [] → converted = slots
  again : c.convert converted = converted

/-- Without stems in the base slot nothing is converted. -/
theorem completes_of_empty (hempty : stemsAt slots c.base = []) :
    c.Completes slots (c.convert slots) := by
  have hsame := convert_of_empty hempty
  -- There is nothing in the base slot to fill others with.
  have hnone {base : List String} (hbase : slots[c.base]? = some base) : base = [] := by
    simpa [stemsAt, hbase] using hempty
  rw [hsame]
  exact {
    kept := fun _ _ hslot _ => hslot
    filled := fun _ hbase hne => absurd (hnone hbase) hne
    others := fun _ _ => rfl
    length := fun _ hbase hne => absurd (hnone hbase) hne
    idle := fun _ => rfl
    again := hsame }

section Base

variable (hbase : slots[c.base]? = some base) (hne : base ≠ [])

include hbase hne

/-- The order of the targets does not matter, but that of the replacements for one of them. -/
theorem stemsAt_convert (n : Nat) : stemsAt (c.convert slots) n =
    if stemsAt slots n = [] then (c.targets.lookup n).elim [] (rewrite · base)
    else stemsAt slots n := by
  rw [convert_of_base hbase hne, stemsAt_foldl_fill hne, lookup_mergeSort]

theorem getElem?_convert {stems : List String} (hslot : slots[n]? = some stems)
    (hstems : stems ≠ []) : (c.convert slots)[n]? = some stems := by
  have hhere : stemsAt slots n = stems := by
    rw [stemsAt, hslot]
    rfl
  refine Slots.getElem?_eq_of_stemsAt ?_ hstems
  rw [stemsAt_convert hbase hne, hhere, if_neg hstems]

/-- After a conversion every target has stems. -/
theorem convert_convert : c.convert (c.convert slots) = c.convert slots := by
  -- The base slot still has its stems, so the conversion would be done again.
  rw [convert_of_base (getElem?_convert hbase hne hbase hne) hne]
  refine foldl_fill_eq_self base fun target htarget => ?_
  have htarget : target ∈ c.targets := List.mem_mergeSort.1 htarget
  rw [stemsAt_convert hbase hne]
  split
  · -- A target without stems would have no replacements, but it is one of the targets.
    cases hfirst : c.targets.lookup target.1 with
    | none => exact absurd (List.lookup_eq_none_iff.1 hfirst target htarget) (by simp)
    | some replacements => simpa [rewrite] using hne
  · assumption

theorem completes_of_base : c.Completes slots (c.convert slots) where
  kept := fun _ _ hslot hstems => getElem?_convert hbase hne hslot hstems
  filled := by
    intro base' hbase' _ n replacements hfirst hfree
    obtain rfl := Option.some.inj (hbase.symm.trans hbase')
    refine ⟨_, Slots.getElem?_eq_of_stemsAt ?_ (by simpa [rewrite] using hne),
      rewritten_rewrite replacements base⟩
    rw [stemsAt_convert hbase hne, if_pos hfree, hfirst, Option.elim_some]
  others := by
    intro n hnone
    rw [stemsAt_convert hbase hne, hnone]
    split
    · rename_i hfree
      exact hfree.symm
    · rfl
  length := by
    intro _ _ _ n
    rw [convert_of_base hbase hne, lt_length_foldl_fill]
    simp only [List.mem_mergeSort]
  idle := by
    intro hempty
    rw [stemsAt, hbase] at hempty
    exact absurd hempty hne
  again := convert_convert hbase hne

end Base

/-- A conversion fills the slots without stems, once and for all. -/
theorem completes_convert (c : StemConversion) (slots : Slots) :
    c.Completes slots (c.convert slots) := by
  by_cases hempty : stemsAt slots c.base = []
  · exact completes_of_empty hempty
  · exact completes_of_base (Slots.getElem?_eq_of_stemsAt rfl hempty) hempty

end StemConversion

end Morphology
