import Mathlib.Data.List.Infix
import Mathlib.Data.List.TakeWhile
import Morphology.Text.Basic

/-!
# Texts cut and replaced

Occurrences are looked for from the left, so that a text may be taken apart wherever no occurrence
reaches across.

## Main definitions

* `replaced` — a text with every occurrence exchanged, as a list of characters
* `passes` — no occurrence begins inside a piece of text
* `IsSplit`, `IsTrimmed` — what cutting and trimming a text mean

## Main statements

* `replaced_append_of_passes` — a piece in which no occurrence begins stays as it is
* `replaced_flatMap` — a text put together from pieces is replaced piece by piece
* `splitOn_join` — pieces without the separator come back from their joined text
* `span_spec` — where a text is cut behind characters of one kind
* `isSplit_iff`, `isTrimmed_iff` — cutting and trimming do what they mean
-/

namespace Morphology.Text

universe u

variable {sep old new s : List Char}

/-- What is said of the characters of a list is decided one by one, and not for all characters there
are. -/
instance (priority := high) decidableForallMem {P : Char → Prop} [DecidablePred P] :
    Decidable (∀ c ∈ s, P c) :=
  List.decidableBAll P s

/-! ## Parts -/

/-- Characters left out are as if they were not there. -/
theorem splitFrom_eq_drop (sep : List Char) (skip : Nat) (s : List Char) :
    splitFrom sep skip s = splitFrom sep 0 (s.drop skip) := by
  induction s generalizing skip with
  | nil => cases skip <;> simp [splitFrom]
  | cons c s ih =>
    cases skip with
    | zero => rfl
    | succ skip => rw [splitFrom, ih, List.drop_succ_cons]

theorem splitOn_nil (sep : List Char) : splitOn sep [] = [[]] := by
  simp [splitOn, splitFrom]

/-- There is always a first part. -/
theorem splitOn_ne_nil (sep s : List Char) : splitOn sep s ≠ [] := by
  simp [splitOn]

theorem splitOn_append_of_isPrefix (hsep : sep ≠ []) (s : List Char) :
    splitOn sep (sep ++ s) = [] :: splitOn sep s := by
  obtain ⟨c, sep, rfl⟩ := List.exists_cons_of_ne_nil hsep
  have hahead : (c :: sep).isPrefixOf (c :: (sep ++ s)) = true := by
    rw [List.isPrefixOf_iff_prefix, ← List.cons_append]
    exact List.prefix_append _ _
  simp only [splitOn, List.cons_append, splitFrom, hahead, if_true, List.length_cons,
    Nat.add_sub_cancel]
  rw [splitFrom_eq_drop, List.drop_left]

theorem splitOn_cons {c : Char} (h : ¬ sep <+: c :: s) :
    splitOn sep (c :: s) = (splitOn sep s).modifyHead (c :: ·) := by
  rw [← List.isPrefixOf_iff_prefix] at h
  simp [splitOn, splitFrom, h]

/-! ## Exchanged occurrences -/

/-- A text with every occurrence of `old` exchanged for `new`. -/
def replaced (old new s : List Char) : List Char :=
  new.intercalate (splitOn old s)

theorem toList_replaceAll (old new s : String) :
    (replaceAll old new s).toList = replaced old.toList new.toList s.toList := by
  rw [replaceAll, String.toList_intercalate, replaced, List.map_map]
  congr 1
  exact List.map_id'' (fun _ => String.toList_ofList) _

@[simp] theorem replaced_nil (old new : List Char) : replaced old new [] = [] := by
  simp [replaced, splitOn_nil, List.intercalate]

theorem replaced_append_of_isPrefix (hold : old ≠ []) (new s : List Char) :
    replaced old new (old ++ s) = new ++ replaced old new s := by
  obtain ⟨part, parts, hparts⟩ := List.exists_cons_of_ne_nil (splitOn_ne_nil old s)
  rw [replaced, replaced, splitOn_append_of_isPrefix hold, hparts, List.intercalate_cons_cons,
    List.nil_append]

theorem replaced_cons {c : Char} (h : ¬ old <+: c :: s) (new : List Char) :
    replaced old new (c :: s) = c :: replaced old new s := by
  obtain ⟨part, parts, hparts⟩ := List.exists_cons_of_ne_nil (splitOn_ne_nil old s)
  rw [replaced, replaced, splitOn_cons h, hparts]
  cases parts with
  | nil => simp [List.intercalate]
  | cons next parts => simp [List.intercalate_cons_cons]

/-! ## Pieces -/

/-- Whether no occurrence of `old` begins inside a piece, whatever follows it. -/
def passes (old piece : List Char) : Bool :=
  piece.tails.all fun t => t.isEmpty || (!old.isPrefixOf t && !t.isPrefixOf old)

private theorem not_prefix_append {t : List Char} (h : ¬ old <+: t) (h' : ¬ t <+: old)
    (rest : List Char) : ¬ old <+: t ++ rest := by
  intro hp
  rcases List.prefix_or_prefix_of_prefix hp (List.prefix_append t rest) with hp | hp
  · exact h hp
  · exact h' hp

/-- A piece in which no occurrence begins stays as it is. -/
theorem replaced_append_of_passes {piece : List Char} (h : passes old piece = true)
    (new rest : List Char) :
    replaced old new (piece ++ rest) = piece ++ replaced old new rest := by
  induction piece with
  | nil => rfl
  | cons c piece ih =>
    simp only [passes, List.tails, List.all_cons, Bool.and_eq_true] at h
    obtain ⟨hhere, hrest⟩ := h
    have hhere : ¬ old <+: c :: piece ∧ ¬ c :: piece <+: old := by
      simpa [List.isPrefixOf_iff_prefix, ← List.isPrefixOf_iff_prefix] using hhere
    have hcons : ¬ old <+: c :: (piece ++ rest) := not_prefix_append hhere.1 hhere.2 rest
    rw [List.cons_append, replaced_cons hcons, ih hrest, List.cons_append]

/-- An occurrence begins with its first character. -/
theorem passes_of_not_mem {c : Char} {piece : List Char} (h : c ∉ piece) :
    passes (c :: old) piece = true := by
  induction piece with
  | nil => rfl
  | cons d piece ih =>
    rw [List.mem_cons, not_or] at h
    simp only [passes, List.tails, List.all_cons, Bool.and_eq_true]
    have hhere : (c == d) = false ∧ (d == c) = false := by simp [h.1, Ne.symm h.1]
    exact ⟨by simp [List.isPrefixOf, hhere], ih h.2⟩

/-- A text put together from pieces is replaced piece by piece, if every piece is an occurrence or
none begins in it. -/
theorem replaced_flatMap {α : Type u} {f : α → List Char} {xs : List α} (hold : old ≠ [])
    (h : ∀ x ∈ xs, f x = old ∨ passes old (f x) = true) (new : List Char) :
    replaced old new (xs.flatMap f) = xs.flatMap fun x => if f x = old then new else f x := by
  induction xs with
  | nil => simp
  | cons x xs ih =>
    obtain ⟨hx, hxs⟩ := List.forall_mem_cons.1 h
    rw [List.flatMap_cons, List.flatMap_cons, ← ih hxs]
    split
    · rename_i heq
      rw [heq, replaced_append_of_isPrefix hold]
    · rename_i hne
      rw [replaced_append_of_passes (hx.resolve_left hne)]

/-- A single character is exchanged wherever it stands. -/
theorem replaced_singleton (c : Char) (new s : List Char) :
    replaced [c] new s = s.flatMap fun d => if d = c then new else [d] := by
  have hpieces : s = s.flatMap fun d => [d] := by simp
  conv_lhs => rw [hpieces]
  rw [replaced_flatMap (by simp)]
  · simp
  · intro d _
    by_cases hd : d = c
    · exact .inl (by rw [hd])
    · exact .inr (passes_of_not_mem (by simpa using Ne.symm hd))

/-! ## Pieces between separators -/

theorem splitOn_of_not_mem {c : Char} {piece : List Char} (h : c ∉ piece) (s : List Char) :
    splitOn [c] (piece ++ s) = (splitOn [c] s).modifyHead (piece ++ ·) := by
  induction piece with
  | nil =>
    rw [List.nil_append]
    cases splitOn [c] s <;> rfl
  | cons d piece ih =>
    rw [List.mem_cons, not_or] at h
    rw [List.cons_append, splitOn_cons (by simp [h.1]), ih h.2]
    cases splitOn [c] s <;> rfl

/-- Pieces without the separator come back from a text in which each stands behind one. -/
theorem splitOn_join {c : Char} {pieces : List (List Char)} (h : ∀ p ∈ pieces, c ∉ p) :
    splitOn [c] (pieces.flatMap (c :: ·)) = [] :: pieces := by
  induction pieces with
  | nil => exact splitOn_nil [c]
  | cons p pieces ih =>
    obtain ⟨hp, hpieces⟩ := List.forall_mem_cons.1 h
    have hjoin : (p :: pieces).flatMap (c :: ·) = [c] ++ (p ++ pieces.flatMap (c :: ·)) := by
      simp
    rw [hjoin, splitOn_append_of_isPrefix (by simp), splitOn_of_not_mem hp, ih hpieces]
    simp

/-- A text without the separator is cut behind it. -/
theorem cutAt_of_not_mem {c : Char} {front : List Char} (h : c ∉ front) (back : List Char) :
    cutAt [c] (front ++ c :: back) = some (front, back) := by
  induction front with
  | nil => simp [cutAt]
  | cons d front ih =>
    rw [List.mem_cons, not_or] at h
    simp [cutAt, ih h.2, h.1]

/-! ## Occurrences -/

theorem hasInfix_cons (sep : List Char) (c : Char) (s : List Char) :
    hasInfix sep (c :: s) = (sep.isPrefixOf (c :: s) || hasInfix sep s) := by
  rw [hasInfix, cutAt]
  cases sep.isPrefixOf (c :: s) <;> simp [hasInfix]

/-- An occurrence begins with its first character. -/
theorem hasInfix_append_of_not_mem {c : Char} {front : List Char} (h : c ∉ front) (s : List Char) :
    hasInfix (c :: sep) (front ++ s) = hasInfix (c :: sep) s := by
  induction front with
  | nil => rfl
  | cons d front ih =>
    rw [List.mem_cons, not_or] at h
    rw [List.cons_append, hasInfix_cons, ih h.2]
    simp [List.isPrefixOf, h.1]

theorem hasInfix_of_not_mem {c : Char} (h : c ∉ s) : hasInfix (c :: sep) s = false := by
  rw [← List.append_nil s, hasInfix_append_of_not_mem h]
  rfl

/-- A text begins as it would without what stands behind a character that the beginning has
not. -/
theorem isPrefixOf_append_cons {c : Char} {front : List Char} (h : c ∉ front)
    (s t : List Char) : front.isPrefixOf (s ++ c :: t) = front.isPrefixOf s := by
  induction front generalizing s with
  | nil => simp
  | cons d front ih =>
    rw [List.mem_cons, not_or] at h
    cases s with
    | nil => simp [List.isPrefixOf, Ne.symm h.1]
    | cons e s => rw [List.cons_append, List.isPrefixOf, List.isPrefixOf, ih h.2]

/-! ## Fronts of a text -/

theorem eq_false_of_mem_head?_dropWhile {test : Char → Bool} {c : Char}
    (h : c ∈ (s.dropWhile test).head?) : test c = false := by
  have hhead := List.head?_dropWhile_not test s
  rw [Option.mem_def.1 h] at hhead
  simpa using hhead

/-- `List.span` cuts a text behind the characters of a test. -/
theorem span_spec {test : Char → Bool} {front rest : List Char}
    (h : s.span test = (front, rest)) : s = front ++ rest ∧ (∀ c ∈ front, test c = true) ∧
      ∀ c ∈ rest.head?, test c = false := by
  rw [List.span_eq_takeWhile_dropWhile, Prod.mk.injEq] at h
  obtain ⟨rfl, rfl⟩ := h
  exact ⟨List.takeWhile_append_dropWhile.symm, List.all_eq_true.1 List.all_takeWhile,
    fun _ hc => eq_false_of_mem_head?_dropWhile hc⟩

/-! ## Parts of a text -/

/-- A text and its parts between the occurrences of a separator, which are taken from the left and
do not overlap: none begins inside a part, even if it reaches into the separator behind the part. -/
inductive IsSplit (sep : List Char) : List Char → List (List Char) → Prop
  | last {part : List Char} (h : ¬ sep <:+: part) : IsSplit sep part [part]
  | cut {part rest : List Char} {parts : List (List Char)}
      (h : ¬ sep <:+: (part ++ sep).dropLast) (hrest : IsSplit sep rest parts) :
      IsSplit sep (part ++ sep ++ rest) (part :: parts)

theorem IsSplit.cons {c : Char} {parts : List (List Char)} (hsep : sep ≠ [])
    (h : IsSplit sep s parts) (hc : ¬ sep <+: c :: s) :
    IsSplit sep (c :: s) (parts.modifyHead (c :: ·)) := by
  cases h with
  -- The text was the last part, and a separator in it would have been in front of `c` or behind.
  | last h =>
    refine .last fun hinside => ?_
    rcases List.infix_cons_iff.1 hinside with hahead | hinside
    · exact hc hahead
    · exact h hinside
  | @cut part rest parts h hrest =>
    -- What begins with `c` and ends before the separator does would be in front of the text.
    have hfront : (c :: part ++ sep).dropLast = c :: (part ++ sep).dropLast := by
      rw [List.cons_append, List.dropLast_cons_of_ne_nil (by simp [hsep])]
    show IsSplit sep (c :: part ++ sep ++ rest) ((c :: part) :: _)
    refine .cut (fun hinside => ?_) hrest
    rw [hfront] at hinside
    rcases List.infix_cons_iff.1 hinside with hahead | hinside
    · refine hc (hahead.trans (List.cons_prefix_cons.2 ⟨rfl, ?_⟩))
      exact (List.dropLast_prefix _).trans (List.prefix_append _ _)
    · exact h hinside

/-- `splitOn` gives the parts between separators. -/
theorem isSplit_splitOn (hsep : sep ≠ []) (s : List Char) : IsSplit sep s (splitOn sep s) := by
  induction hlength : s.length using Nat.strongRecOn generalizing s with
  | ind n ih =>
    subst hlength
    by_cases hahead : sep <+: s
    · obtain ⟨rest, rfl⟩ := hahead
      have hlt : rest.length < (sep ++ rest).length := by
        have := List.length_pos_iff.2 hsep
        rw [List.length_append]
        omega
      rw [splitOn_append_of_isPrefix hsep]
      show IsSplit sep ([] ++ sep ++ rest) ([] :: _)
      refine .cut (fun hinside => ?_) (ih _ hlt rest rfl)
      have hle := hinside.length_le
      have := List.length_pos_iff.2 hsep
      rw [List.nil_append, List.length_dropLast] at hle
      omega
    · -- No separator is in front, so the first character joins the first part.
      cases s with
      | nil =>
        rw [splitOn_nil]
        exact .last fun hinside => hsep (List.infix_nil.1 hinside)
      | cons c s =>
        rw [splitOn_cons hahead]
        exact (ih _ (Nat.lt_succ_self _) s rfl).cons hsep hahead

theorem splitOn_eq_singleton (h : ¬ sep <:+: s) : splitOn sep s = [s] := by
  induction s with
  | nil => exact splitOn_nil sep
  | cons c s ih =>
    rw [splitOn_cons fun hahead => h hahead.isInfix, ih fun hinside => h (hinside.trans ?_)]
    · rfl
    · exact (List.suffix_cons c s).isInfix

/-- A part behind which there is a separator, and in which none begins. -/
theorem splitOn_part {part : List Char} (h : ¬ sep <:+: (part ++ sep).dropLast)
    (hsep : sep ≠ []) (rest : List Char) :
    splitOn sep (part ++ sep ++ rest) = part :: splitOn sep rest := by
  induction part with
  | nil => rw [List.nil_append, splitOn_append_of_isPrefix hsep]
  | cons c part ih =>
    have hfront : (c :: part ++ sep).dropLast = c :: (part ++ sep).dropLast := by
      rw [List.cons_append, List.dropLast_cons_of_ne_nil (by simp [hsep])]
    rw [hfront, List.infix_cons_iff, not_or] at h
    rw [List.cons_append, List.cons_append, splitOn_cons ?_, ih h.2]
    · rfl
    · -- A separator in front would end within the part and the front of the separator behind it.
      intro hahead
      refine h.1 (List.prefix_of_prefix_length_le hahead ?_ ?_)
      · refine List.cons_prefix_cons.2 ⟨rfl, ?_⟩
        exact (List.dropLast_prefix _).trans (List.prefix_append _ _)
      · rw [List.length_cons, List.length_dropLast, List.length_append]
        have := List.length_pos_iff.2 hsep
        omega

/-- `splitOn` gives the parts between separators, and there are no others. -/
theorem isSplit_iff (hsep : sep ≠ []) {parts : List (List Char)} :
    IsSplit sep s parts ↔ parts = splitOn sep s := by
  constructor
  · intro h
    induction h with
    | last h => exact (splitOn_eq_singleton h).symm
    | cut h _ ih => rw [splitOn_part h hsep, ih]
  · intro h
    exact h ▸ isSplit_splitOn hsep s

/-- A text and what is left of it without the characters of `test` at either end. -/
structure IsTrimmed (test : Char → Bool) (s t : List Char) : Prop where
  around : ∃ front back, s = front ++ t ++ back ∧ ∀ c ∈ front ++ back, test c = true
  first : ∀ c ∈ t.head?, test c = false
  last : ∀ c ∈ t.getLast?, test c = false

theorem isTrimmed_trimBoth (test : Char → Bool) (s : List Char) :
    IsTrimmed test s (trimBoth test s) := by
  -- What is dropped at the end is what is dropped at the beginning of the reversed text.
  have hrest : trimBoth test s ++ ((s.dropWhile test).reverse.takeWhile test).reverse =
      s.dropWhile test := by
    rw [trimBoth, ← List.reverse_append, List.takeWhile_append_dropWhile, List.reverse_reverse]
  refine ⟨⟨s.takeWhile test, ((s.dropWhile test).reverse.takeWhile test).reverse, ?_, ?_⟩, ?_, ?_⟩
  · rw [List.append_assoc, hrest, List.takeWhile_append_dropWhile]
  · intro c hc
    rcases List.mem_append.1 hc with hc | hc
    · exact List.all_eq_true.1 List.all_takeWhile c hc
    · exact List.all_eq_true.1 List.all_takeWhile c (List.mem_reverse.1 hc)
  · intro c hc
    refine eq_false_of_mem_head?_dropWhile (s := s) ?_
    rw [← hrest, List.head?_append, Option.mem_def.1 hc]
    rfl
  · intro c hc
    rw [trimBoth, List.getLast?_reverse] at hc
    exact eq_false_of_mem_head?_dropWhile hc

theorem dropWhile_append_of_head {test : Char → Bool} {front t : List Char}
    (hfront : ∀ c ∈ front, test c = true) (ht : ∀ c ∈ t.head?, test c = false) :
    (front ++ t).dropWhile test = t := by
  rw [List.dropWhile_append_of_pos hfront]
  cases t with
  | nil => rfl
  | cons c t => rw [List.dropWhile_cons_of_neg (by simp [ht c rfl])]

/-- `trimBoth` leaves what is left of a text, and nothing else is. -/
theorem isTrimmed_iff {test : Char → Bool} {t : List Char} :
    IsTrimmed test s t ↔ t = trimBoth test s := by
  constructor
  · intro h
    obtain ⟨⟨front, back, rfl, haround⟩, hfirst, hlast⟩ := h
    have hback : ∀ c ∈ back.reverse, test c = true := fun c hc =>
      haround c (List.mem_append_right _ (List.mem_reverse.1 hc))
    -- What is kept begins and ends with characters that stay.
    cases t with
    | nil =>
      -- The whole text is dropped from the front.
      have hall := List.dropWhile_eq_nil_iff.2 haround
      rw [trimBoth, List.append_nil, hall]
      rfl
    | cons c t =>
      have hdrop : (front ++ (c :: t) ++ back).dropWhile test = c :: t ++ back := by
        rw [List.append_assoc, dropWhile_append_of_head
          (fun c hc => haround c (List.mem_append_left _ hc))]
        simpa using hfirst
      rw [trimBoth, hdrop, List.reverse_append, dropWhile_append_of_head hback,
        List.reverse_reverse]
      rw [List.head?_reverse]
      exact hlast
  · intro h
    exact h ▸ isTrimmed_trimBoth test s

end Morphology.Text
