import Mathlib.Data.List.Basic
import Morphology.Pattern.CharSet

/-!
# Sets of characters as spans

A set is kept as spans of code points.  Spans that run from one character to a character that is not
before it are joined without a loss, and all sets that a pattern text can stand for consist of such
spans.

## Main definitions

* `Span.IsProper`, `CharSet.IsProper` — spans from a character to one that is not before it
* `SetExpr.IsProper` — the spans and named sets of an expression are proper

## Main statements

* `CharSet.contains_union`, `CharSet.contains_ofChars` — membership in sets that are put together
* `CharSet.eq_iff_contains_of_only?` — a set of one character
* `SetExpr.isProper_toSet` — the set of a proper expression is proper
-/

namespace Morphology.Pattern

/-! ## Spans -/

namespace Span

/-- A span runs from a character to one that is not before it. -/
structure IsProper (s : Span) : Prop where
  le : s.first ≤ s.last
  first : s.first.isValidChar
  last : s.last.isValidChar

instance (s : Span) : Decidable s.IsProper :=
  decidable_of_iff (s.first ≤ s.last ∧ s.first.isValidChar ∧ s.last.isValidChar)
    ⟨fun h => ⟨h.1, h.2.1, h.2.2⟩, fun h => ⟨h.le, h.first, h.last⟩⟩

variable {s t : Span} {spans : List Span} {n start : Nat}

@[simp] theorem contains_iff : s.contains n = true ↔ s.first ≤ n ∧ n ≤ s.last := by
  simp [contains]

theorem IsProper.join (hs : s.IsProper) (ht : t.IsProper) :
    IsProper ⟨min s.first t.first, max s.last t.last⟩ where
  le := by
    have hle := hs.le
    dsimp only
    omega
  first := by
    rw [Nat.min_def]
    split
    · exact hs.first
    · exact ht.first
  last := by
    rw [Nat.max_def]
    split
    · exact ht.last
    · exact hs.last

/-- Spans that are joined overlap or touch, so that nothing comes between them. -/
theorem exists_mem_insert_iff (hs : s.IsProper) (hspans : ∀ t ∈ spans, t.IsProper) :
    (∃ t ∈ insert s spans, t.contains n = true) ↔
      s.contains n = true ∨ ∃ t ∈ spans, t.contains n = true := by
  fun_induction insert s spans with
  | case1 s => simp
  | case2 s t rest hbefore => simp
  | case3 s t rest hbefore hbehind ih =>
    obtain ⟨-, hrest⟩ := List.forall_mem_cons.1 hspans
    -- The span lies behind the first one and is put among the rest.
    rw [List.exists_mem_cons_iff, List.exists_mem_cons_iff, ih hs hrest]
    exact or_left_comm
  | case4 s t rest hbefore hbehind ih =>
    obtain ⟨ht, hrest⟩ := List.forall_mem_cons.1 hspans
    -- Neither span is empty, and the one begins at most right behind the other.
    have hle := hs.le
    have hle' := ht.le
    rw [ih (hs.join ht) hrest, List.exists_mem_cons_iff, ← or_assoc]
    apply or_congr_left
    simp only [contains_iff]
    omega

theorem isProper_of_mem_insert (hs : s.IsProper) (hspans : ∀ t ∈ spans, t.IsProper)
    (h : t ∈ insert s spans) : t.IsProper := by
  fun_induction insert s spans with
  | case1 s => exact List.mem_singleton.1 h ▸ hs
  | case2 s u rest hbefore => exact List.forall_mem_cons.2 ⟨hs, hspans⟩ t h
  | case3 s u rest hbefore hbehind ih =>
    obtain ⟨hu, hrest⟩ := List.forall_mem_cons.1 hspans
    cases List.mem_cons.1 h with
    | inl heq => exact heq ▸ hu
    | inr hmem => exact ih hs hrest hmem
  | case4 s u rest hbefore hbehind ih =>
    obtain ⟨hu, hrest⟩ := List.forall_mem_cons.1 hspans
    exact ih (hs.join hu) hrest h

theorem isValidChar_next (h : n.isValidChar) : next n ≤ greatest → (next n).isValidChar := by
  unfold next greatest Nat.isValidChar at *
  split <;> omega

theorem isValidChar_previous (h : n.isValidChar) (hpos : 0 < n) : (previous n).isValidChar := by
  unfold previous Nat.isValidChar at *
  split <;> omega

/-- No surrogate stands between a character and the one before the next. -/
theorem le_previous (hstart : start.isValidChar) (h : start < n) : start ≤ previous n := by
  unfold previous Nat.isValidChar at *
  split <;> omega

/-- What proper spans leave free is proper. -/
theorem isProper_of_mem_gaps (hspans : ∀ t ∈ spans, t.IsProper)
    (hstart : start ≤ greatest → start.isValidChar) (h : t ∈ gaps start spans) : t.IsProper := by
  induction spans generalizing start with
  | nil =>
    unfold gaps at h
    split at h
    · rename_i hle
      -- Behind the last span, up to the greatest character.
      rw [List.mem_singleton.1 h]
      have hgreatest : greatest.isValidChar := .inr (by decide)
      exact ⟨hle, hstart hle, hgreatest⟩
    · exact absurd h List.not_mem_nil
  -- Between two spans, or behind both.
  | cons s rest ih =>
    obtain ⟨hs, hrest⟩ := List.forall_mem_cons.1 hspans
    unfold gaps at h
    split at h
    · rename_i hlt
      cases List.mem_cons.1 h with
      | inl heq =>
        -- The gap runs up to the character before the span.
        have hfirst := hs.first
        have hvalid : start.isValidChar := hstart (by
          unfold greatest Nat.isValidChar at *
          omega)
        rw [heq]
        exact ⟨le_previous hvalid hlt, hvalid, isValidChar_previous hfirst (by omega)⟩
      | inr hmem => exact ih hrest (isValidChar_next hs.last) hmem
    · exact ih hrest (isValidChar_next hs.last) h

end Span

/-! ## Sets -/

namespace CharSet

/-- All spans of a set are proper. -/
def IsProper (s : CharSet) : Prop :=
  ∀ t ∈ s.spans, t.IsProper

instance (s : CharSet) : Decidable s.IsProper :=
  inferInstanceAs (Decidable (∀ t ∈ s.spans, t.IsProper))

variable {s t : CharSet} {spans : List Span} {ns : List Nat} {cs : List Char} {c d : Char}

theorem contains_iff : s.contains c = true ↔ ∃ t ∈ s.spans, t.contains c.toNat = true := by
  rw [contains, hasPoint, List.any_eq_true]

@[simp] theorem contains_empty (c : Char) : empty.contains c = false := rfl

@[simp] theorem contains_single : (single c).contains d = true ↔ d = c := by
  simp only [contains_iff, single, span, List.mem_singleton, exists_eq_left, Span.contains_iff,
    ← Char.toNat_inj]
  omega

theorem isProper_empty : empty.IsProper := fun _ h => absurd h List.not_mem_nil

theorem isProper_span (h : c ≤ d) : (span c d).IsProper := by
  intro t ht
  rw [List.mem_singleton.1 ht]
  exact ⟨h, c.valid, d.valid⟩

theorem IsProper.insertAll (hspans : ∀ t ∈ spans, t.IsProper) (hs : s.IsProper) :
    IsProper ⟨spans.foldr Span.insert s.spans⟩ := by
  induction spans with
  | nil => exact hs
  | cons t rest ih =>
    obtain ⟨ht, hrest⟩ := List.forall_mem_cons.1 hspans
    exact fun u hu => Span.isProper_of_mem_insert ht (ih hrest) hu

/-- Spans are inserted into a set without a loss. -/
theorem contains_insertAll (hspans : ∀ t ∈ spans, t.IsProper) (hs : s.IsProper) :
    (CharSet.mk (spans.foldr Span.insert s.spans)).contains c = true ↔
      (∃ t ∈ spans, t.contains c.toNat = true) ∨ s.contains c = true := by
  induction spans with
  | nil => simp [contains_iff]
  | cons t rest ih =>
    obtain ⟨ht, hrest⟩ := List.forall_mem_cons.1 hspans
    have hinserted := Span.exists_mem_insert_iff (n := c.toNat) ht (IsProper.insertAll hrest hs)
    have hrest := ih hrest
    rw [contains_iff] at hrest ⊢
    rw [List.foldr_cons, hinserted, hrest, List.exists_mem_cons_iff]
    exact or_assoc.symm

theorem IsProper.union (hs : s.IsProper) (ht : t.IsProper) : (s.union t).IsProper :=
  IsProper.insertAll hs ht

theorem contains_union (hs : s.IsProper) (ht : t.IsProper) :
    (s.union t).contains c = true ↔ s.contains c = true ∨ t.contains c = true := by
  rw [union, contains_insertAll hs ht, contains_iff (s := s)]

theorem isProper_ofSpans (h : ∀ t ∈ spans, t.IsProper) : (ofSpans spans).IsProper :=
  IsProper.insertAll (s := empty) h isProper_empty

theorem isProper_ofPoints (h : ∀ n ∈ ns, n.isValidChar) : (ofPoints ns).IsProper := by
  refine isProper_ofSpans fun t ht => ?_
  obtain ⟨n, hn, rfl⟩ := List.mem_map.1 ht
  exact ⟨Nat.le_refl n, h n hn, h n hn⟩

theorem isProper_ofChars (cs : List Char) : (ofChars cs).IsProper := by
  refine isProper_ofPoints fun n hn => ?_
  obtain ⟨c, -, rfl⟩ := List.mem_map.1 hn
  exact c.valid

theorem contains_ofChars : (ofChars cs).contains c = true ↔ c ∈ cs := by
  -- Each character is a span of its own.
  have hpoints : ∀ t ∈ (cs.map Char.toNat).map (fun n => Span.mk n n), t.IsProper := by
    intro t ht
    obtain ⟨n, hn, rfl⟩ := List.mem_map.1 ht
    obtain ⟨d, -, rfl⟩ := List.mem_map.1 hn
    exact ⟨Nat.le_refl _, d.valid, d.valid⟩
  have hcontains := contains_insertAll (s := empty) (c := c) hpoints isProper_empty
  rw [ofChars, ofPoints, ofSpans]
  refine hcontains.trans ?_
  simp only [contains_empty, Bool.false_eq_true, or_false, List.mem_map, Span.contains_iff]
  constructor
  · intro h
    obtain ⟨t, ⟨n, ⟨d, hd, rfl⟩, rfl⟩, hle, hge⟩ := h
    exact Char.toNat_inj.1 (Nat.le_antisymm hle hge) ▸ hd
  · intro h
    exact ⟨_, ⟨_, ⟨c, h, rfl⟩, rfl⟩, Nat.le_refl _, Nat.le_refl _⟩

theorem IsProper.compl (hs : s.IsProper) : s.compl.IsProper := by
  intro t ht
  refine Span.isProper_of_mem_gaps hs (fun _ => ?_) ht
  exact .inl (by omega)

theorem IsProper.inter (hs : s.IsProper) (ht : t.IsProper) : (s.inter t).IsProper :=
  (hs.compl.union ht.compl).compl

theorem IsProper.diff (hs : s.IsProper) (ht : t.IsProper) : (s.diff t).IsProper :=
  hs.inter ht.compl

theorem IsProper.symmDiff (hs : s.IsProper) (ht : t.IsProper) : (s.symmDiff t).IsProper :=
  (hs.diff ht).union (ht.diff hs)

/-- The table of cases has characters only. -/
theorem isValidChar_of_mem_pairs : ∀ pair ∈ caseRuns.toList.flatMap CaseRun.pairs,
    pair.1.isValidChar ∧ pair.2.isValidChar := by
  decide +kernel

theorem IsProper.ignoringCase (hs : s.IsProper) : s.ignoringCase.IsProper := by
  have hpoints (test : Nat × Nat → Bool) (get : Nat × Nat → Nat)
      (hget : ∀ pair : Nat × Nat, pair.1.isValidChar ∧ pair.2.isValidChar →
        (get pair).isValidChar) :
      (ofPoints (((caseRuns.toList.flatMap CaseRun.pairs).filter test).map get)).IsProper := by
    refine isProper_ofPoints fun n hn => ?_
    obtain ⟨pair, hpair, rfl⟩ := List.mem_map.1 hn
    exact hget pair (isValidChar_of_mem_pairs pair (List.mem_filter.1 hpair).1)
  -- Of each pair of the table either member brings the other in.
  exact (hs.union (hpoints _ _ fun _ h => h.2)).union (hpoints _ _ fun _ h => h.1)

theorem isProper_any : any.IsProper := isProper_empty.compl

theorem isProper_inLine : inLine.IsProper := IsProper.compl (isProper_span (Nat.le_refl _))

theorem isProper_inLineCRLF : inLineCRLF.IsProper :=
  IsProper.compl ((isProper_span (Nat.le_refl _)).union (isProper_span (Nat.le_refl _)))

theorem isProper_blank : blank.IsProper := by decide +kernel

theorem isProper_decimal : decimal.IsProper := by
  refine isProper_ofSpans ?_
  decide +kernel

theorem isProper_word : word.IsProper := by
  refine isProper_ofSpans ?_
  decide +kernel

/-- A set of one character has just this one. -/
theorem eq_iff_contains_of_only? (hs : s.IsProper) (honly : s.only? = some c) :
    s.contains d = true ↔ d = c := by
  unfold only? at honly
  split at honly
  · rename_i t hspans
    split at honly
    · -- The only span has the same character at both ends.
      rename_i heq
      have ht : t.IsProper := hs t (hspans ▸ List.mem_singleton_self t)
      have hc : c.toNat = t.first := by
        rw [← Option.some.inj honly, Char.ofNat, dif_pos ht.first]
        rfl
      simp only [contains_iff, hspans, List.mem_singleton, exists_eq_left, Span.contains_iff,
        ← Char.toNat_inj, hc]
      omega
    · exact absurd honly nofun
  · exact absurd honly nofun

end CharSet

/-! ## Sets in brackets -/

namespace SetExpr

/-- The spans and named sets of an expression are proper. -/
def IsProper : SetExpr → Prop
  | .nothing => True
  | .span first last => first ≤ last
  | .named s => s.IsProper
  | .ascii _ s => s.IsProper
  | .bracket _ members => members.IsProper
  | .join members member => members.IsProper ∧ member.IsProper
  | .operation _ left right => left.IsProper ∧ right.IsProper

theorem IsProper.fold {s : CharSet} (ignoreCase : Bool) (hs : s.IsProper) :
    (toSet.fold ignoreCase s).IsProper := by
  unfold toSet.fold
  split
  · exact hs.ignoringCase
  · exact hs

/-- The set of a proper expression is proper. -/
theorem isProper_toSet {e : SetExpr} (ignoreCase : Bool) (he : e.IsProper) :
    (e.toSet ignoreCase).IsProper := by
  -- By induction on the expression; folding and complement keep a set proper.
  induction e with
  | nothing => exact CharSet.isProper_empty
  | span first last => exact CharSet.isProper_span he
  | named s => exact he
  | ascii negated s =>
    have hs := IsProper.fold ignoreCase (show s.IsProper from he)
    unfold toSet
    cases negated with
    | false => exact hs
    | true => exact hs.compl
  | bracket negated members ih =>
    have hmembers := IsProper.fold ignoreCase (ih he)
    unfold toSet
    cases negated with
    | false => exact hmembers
    | true => exact hmembers.compl
  | join members member ihmembers ihmember => exact (ihmembers he.1).union (ihmember he.2)
  | operation op left right ihleft ihright =>
    have hleft := IsProper.fold ignoreCase (ihleft he.1)
    have hright := IsProper.fold ignoreCase (ihright he.2)
    cases op with
    | inter => exact hleft.inter hright
    | diff => exact hleft.diff hright
    | symmDiff => exact hleft.symmDiff hright

theorem IsProper.add {members member : SetExpr} (hmembers : members.IsProper)
    (hmember : member.IsProper) : (members.add member).IsProper := by
  unfold SetExpr.add
  split
  · exact hmember
  · exact ⟨hmembers, hmember⟩

end SetExpr

end Morphology.Pattern
