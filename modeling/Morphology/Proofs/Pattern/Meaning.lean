import Morphology.Pattern.Basic
import Morphology.Proofs.Outcome
import Morphology.Proofs.Pattern.Sets

/-!
# What patterns match

A pattern matches a text between two places of it.  Which places these are is said for each
constructor by itself, without preferences and without a program.  Making a pattern out of others
keeps this meaning, however much it is simplified on the way.

## Main definitions

* `placeAt` — the place behind a number of characters of a text
* `Expr.Spans` — a pattern matches a text between two places
* `Expr.SpansAll` — patterns one after another do
* `Expr.IsProper` — sets are proper, and bounds of loops are in order

## Main statements

* `Expr.spans_sequence`, `Expr.spans_choice`, `Expr.spans_ofSet` — what patterns match that are made
  of others
* `Expr.le_of_spans` — the places come in order
-/

namespace Morphology.Pattern

/-- The place behind the first `i` characters of a text. -/
def placeAt (text : List Char) (i : Nat) : Place :=
  ⟨if i = 0 then none else text[i - 1]?, text[i]?⟩

namespace Expr

/-! ## The meaning of patterns -/

/-- A number of turns one after another, each from the place that the one before has led to. -/
def Turns (turn : Nat → Nat → Prop) : Nat → Nat → Nat → Prop
  | 0, i, j => j = i
  | n + 1, i, j => ∃ k, turn i k ∧ Turns turn n k j

/-- A pattern matches a text from its place `i` to its place `j`. -/
def Spans (text : List Char) : Expr → Nat → Nat → Prop
  | .empty, i, j => j = i
  | .literal s, i, j => s <+: text.drop i ∧ j = i + s.length
  | .one s, i, j => ∃ c, text[i]? = some c ∧ s.contains c = true ∧ j = i + 1
  | .assert a, i, j => a.holds (placeAt text i) = true ∧ j = i
  | .seq p q, i, j => ∃ k, Spans text p i k ∧ Spans text q k j
  | .alt p q, i, j => Spans text p i j ∨ Spans text q i j
  | .loop least most _ p, i, j =>
    ∃ n, least ≤ n ∧ (∀ m ∈ most, n ≤ m) ∧ Turns (Spans text p) n i j
  | .group _ p, i, j => Spans text p i j

/-- Patterns match a text one after another. -/
def SpansAll (text : List Char) : List Expr → Nat → Nat → Prop
  | [], i, j => j = i
  | p :: ps, i, j => ∃ k, p.Spans text i k ∧ SpansAll text ps k j

/-- The sets of a pattern are proper, and the bounds of its loops are in order. -/
def IsProper : Expr → Prop
  | .one s => s.IsProper
  | .seq p q | .alt p q => p.IsProper ∧ q.IsProper
  | .loop least most _ p => (∀ m ∈ most, least ≤ m) ∧ p.IsProper
  | .group _ p => p.IsProper
  | .empty | .literal _ | .assert _ => True

variable {text : List Char} {p q : Expr} {ps qs : List Expr} {s : CharSet} {c : Char}
  {i j k n m : Nat}

theorem spans_loop {least : Nat} {most : Option Nat} {greedy : Bool} :
    (loop least most greedy p).Spans text i j ↔
      ∃ n, least ≤ n ∧ (∀ m ∈ most, n ≤ m) ∧ Turns (p.Spans text) n i j :=
  Iff.rfl

/-! ## Turns -/

theorem turns_add {turn : Nat → Nat → Prop} :
    Turns turn (n + m) i j ↔ ∃ k, Turns turn n i k ∧ Turns turn m k j := by
  induction n generalizing i with
  | zero => simp [Turns]
  | succ n ih =>
    rw [Nat.succ_add]
    simp only [Turns, ih]
    constructor
    · intro h
      obtain ⟨k, hfirst, l, hrest, hlast⟩ := h
      exact ⟨l, ⟨k, hfirst, hrest⟩, hlast⟩
    · intro h
      obtain ⟨l, ⟨k, hfirst, hrest⟩, hlast⟩ := h
      exact ⟨k, hfirst, l, hrest, hlast⟩

theorem spans_loop_any {greedy : Bool} :
    (loop 0 none greedy p).Spans text i j ↔ ∃ n, Turns (p.Spans text) n i j := by
  simp [spans_loop]

/-- The last turn that has to be is the first of those that may be repeated. -/
theorem spans_loop_from_succ {least : Nat} {greedy : Bool} :
    (loop (least + 1) none greedy p).Spans text i j ↔
      ∃ k, Turns (p.Spans text) least i k ∧ ∃ n, Turns (p.Spans text) (n + 1) k j := by
  rw [spans_loop]
  constructor
  · intro h
    obtain ⟨n, hle, -, hturns⟩ := h
    obtain ⟨m, rfl⟩ := Nat.exists_eq_add_of_le hle
    rw [Nat.add_assoc, Nat.add_comm 1 m] at hturns
    obtain ⟨k, hleast, hmore⟩ := turns_add.1 hturns
    exact ⟨k, hleast, m, hmore⟩
  · intro h
    obtain ⟨k, hleast, n, hmore⟩ := h
    exact ⟨least + (n + 1), by omega, nofun, turns_add.2 ⟨k, hleast, hmore⟩⟩

/-- Behind the turns that have to be are those that may be. -/
theorem spans_loop_upTo {least most : Nat} {greedy : Bool} (hle : least ≤ most) :
    (loop least (some most) greedy p).Spans text i j ↔
      ∃ k, Turns (p.Spans text) least i k ∧ ∃ n ≤ most - least, Turns (p.Spans text) n k j := by
  rw [spans_loop]
  constructor
  · intro h
    obtain ⟨n, hn, hbound, hturns⟩ := h
    have hbound : n ≤ most := hbound most rfl
    obtain ⟨m, rfl⟩ := Nat.exists_eq_add_of_le hn
    obtain ⟨k, hleast, hmore⟩ := turns_add.1 hturns
    exact ⟨k, hleast, m, by omega, hmore⟩
  · intro h
    obtain ⟨k, hleast, n, hn, hmore⟩ := h
    refine ⟨least + n, by omega, fun m hm => ?_, turns_add.2 ⟨k, hleast, hmore⟩⟩
    rw [← Option.some.inj hm]
    omega

/-- If no turn goes back or beyond a place, they do not together. -/
theorem turns_in_order {turn : Nat → Nat → Prop} {last : Nat}
    (h : ∀ i j, turn i j → i ≤ j ∧ (i ≤ last → j ≤ last)) (hturns : Turns turn n i j) :
    i ≤ j ∧ (i ≤ last → j ≤ last) := by
  induction n generalizing i with
  | zero =>
    obtain rfl : j = i := hturns
    exact ⟨Nat.le_refl j, id⟩
  | succ n ih =>
    obtain ⟨k, hfirst, hrest⟩ := hturns
    have hfirst := h i k hfirst
    have hrest := ih hrest
    exact ⟨Nat.le_trans hfirst.1 hrest.1, fun hi => hrest.2 (hfirst.2 hi)⟩

/-! ## Places in order -/

/-- The places come in order, and the second is one of the text if the first is. -/
theorem le_of_spans (h : p.Spans text i j) : i ≤ j ∧ (i ≤ text.length → j ≤ text.length) := by
  -- By induction on the expression: the parts of a sequence and the turns of a loop stand behind
  -- each other.
  induction p generalizing i j with
  | empty =>
    obtain rfl : j = i := h
    exact ⟨Nat.le_refl j, id⟩
  | literal s =>
    obtain ⟨hbegins, rfl⟩ := h
    have hlength := hbegins.length_le
    rw [List.length_drop] at hlength
    omega
  | one s =>
    obtain ⟨c, hc, -, rfl⟩ := h
    have hlt := (List.getElem?_eq_some_iff.1 hc).1
    omega
  | assert a =>
    obtain ⟨-, rfl⟩ := h
    exact ⟨Nat.le_refl j, id⟩
  | seq p q ihp ihq =>
    obtain ⟨k, hp, hq⟩ := h
    exact ⟨Nat.le_trans (ihp hp).1 (ihq hq).1, fun hi => (ihq hq).2 ((ihp hp).2 hi)⟩
  | alt p q ihp ihq =>
    cases h with
    | inl hp => exact ihp hp
    | inr hq => exact ihq hq
  | loop least most greedy p ih =>
    obtain ⟨n, -, -, hturns⟩ := h
    exact turns_in_order (fun i j h => ih h) hturns
  | group index p ih => exact ih h

/-! ## Patterns one after another -/

theorem spansAll_append : SpansAll text (ps ++ qs) i j ↔
    ∃ k, SpansAll text ps i k ∧ SpansAll text qs k j := by
  induction ps generalizing i with
  | nil => simp [SpansAll]
  | cons p ps ih =>
    simp only [List.cons_append, SpansAll, ih]
    constructor
    · intro h
      obtain ⟨k, hp, l, hps, hqs⟩ := h
      exact ⟨l, ⟨k, hp, hps⟩, hqs⟩
    · intro h
      obtain ⟨l, ⟨k, hp, hps⟩, hqs⟩ := h
      exact ⟨k, hp, l, hps, hqs⟩

@[simp] theorem spansAll_singleton : SpansAll text [p] i j ↔ p.Spans text i j := by
  simp [SpansAll]

theorem spansAll_parts : SpansAll text p.parts i j ↔ p.Spans text i j := by
  induction p generalizing i with
  | empty => rfl
  | seq p q _ ihq => simp only [parts, SpansAll, Spans, ihq]
  | _ => exact spansAll_singleton

theorem spansAll_flatMap_parts : SpansAll text (ps.flatMap parts) i j ↔ SpansAll text ps i j := by
  induction ps generalizing i with
  | nil => rfl
  | cons p ps ih => simp only [List.flatMap_cons, spansAll_append, spansAll_parts, SpansAll, ih]

theorem append_prefix_iff {s t rest : List Char} :
    s ++ t <+: rest ↔ s <+: rest ∧ t <+: rest.drop s.length := by
  constructor
  · intro h
    obtain ⟨u, rfl⟩ := h
    rw [List.append_assoc, List.drop_left]
    exact ⟨List.prefix_append _ _, List.prefix_append _ _⟩
  · intro h
    obtain ⟨⟨u, rfl⟩, ht⟩ := h
    rw [List.drop_left] at ht
    exact (List.prefix_append_right_inj s).2 ht

/-- Literal text is read as it is in pieces. -/
theorem spans_literal_append {s t : List Char} : (literal (s ++ t)).Spans text i j ↔
    ∃ k, (literal s).Spans text i k ∧ (literal t).Spans text k j := by
  simp only [Spans, append_prefix_iff, List.drop_drop, List.length_append]
  constructor
  · intro h
    obtain ⟨⟨hs, ht⟩, rfl⟩ := h
    exact ⟨_, ⟨hs, rfl⟩, ht, by omega⟩
  · intro h
    obtain ⟨k, ⟨hs, rfl⟩, ht, rfl⟩ := h
    exact ⟨⟨hs, ht⟩, by omega⟩

theorem spansAll_cons : SpansAll text (cons p ps) i j ↔ SpansAll text (p :: ps) i j := by
  unfold cons
  split
  · -- Two literal texts become one.
    simp only [SpansAll, spans_literal_append]
    constructor
    · intro h
      obtain ⟨k, ⟨l, hs, ht⟩, hrest⟩ := h
      exact ⟨l, hs, k, ht, hrest⟩
    · intro h
      obtain ⟨l, hs, k, ht, hrest⟩ := h
      exact ⟨k, ⟨l, hs, ht⟩, hrest⟩
  · rfl

theorem spansAll_foldr_cons : SpansAll text (ps.foldr cons []) i j ↔ SpansAll text ps i j := by
  induction ps generalizing i with
  | nil => rfl
  | cons p ps ih => simp only [List.foldr_cons, spansAll_cons, SpansAll, ih]

theorem spans_foldl_seq : (ps.foldl (fun q p => seq p q) q).Spans text i j ↔
    SpansAll text (ps.reverse ++ [q]) i j := by
  induction ps generalizing q with
  | nil => exact spansAll_singleton.symm
  | cons p ps ih =>
    rw [List.foldl_cons, ih, List.reverse_cons, List.append_assoc, spansAll_append, spansAll_append]
    simp only [List.singleton_append, SpansAll, Spans, exists_eq_right']

/-- A sequence matches what its parts match one after another. -/
theorem spans_sequence : (sequence ps).Spans text i j ↔ SpansAll text ps i j := by
  rw [← spansAll_flatMap_parts, ← spansAll_foldr_cons]
  unfold sequence
  split
  · rename_i hnil
    rw [List.reverse_eq_nil_iff.1 hnil]
    rfl
  · -- The sequence is put together from its last part.
    rename_i last rest hlast
    rw [spans_foldl_seq, List.reverse_eq_cons_iff.1 hlast]

theorem isProper_of_mem_parts (hp : p.IsProper) (hq : q ∈ p.parts) : q.IsProper := by
  induction p with
  | empty => exact absurd hq List.not_mem_nil
  | seq p₁ p₂ _ ih =>
    cases List.mem_cons.1 hq with
    | inl heq => exact heq ▸ hp.1
    | inr hmem => exact ih hp.2 hmem
  | _ => exact List.mem_singleton.1 hq ▸ hp

theorem isProper_of_mem_cons (hp : p.IsProper) (hps : ∀ q ∈ ps, q.IsProper)
    (hq : q ∈ cons p ps) : q.IsProper := by
  unfold cons at hq
  split at hq
  · obtain ⟨-, hrest⟩ := List.forall_mem_cons.1 hps
    cases List.mem_cons.1 hq with
    | inl heq => exact heq ▸ trivial
    | inr hmem => exact hrest q hmem
  · exact List.forall_mem_cons.2 ⟨hp, hps⟩ q hq

theorem isProper_of_mem_foldr_cons (hps : ∀ p ∈ ps, p.IsProper) (hq : q ∈ ps.foldr cons []) :
    q.IsProper := by
  induction ps generalizing q with
  | nil => exact absurd hq List.not_mem_nil
  | cons p ps ih =>
    obtain ⟨hp, hps⟩ := List.forall_mem_cons.1 hps
    exact isProper_of_mem_cons hp (fun q hq => ih hps hq) hq

theorem isProper_foldl_seq (hps : ∀ p ∈ ps, p.IsProper) (hq : q.IsProper) :
    (ps.foldl (fun q p => seq p q) q).IsProper := by
  induction ps generalizing q with
  | nil => exact hq
  | cons p ps ih =>
    obtain ⟨hp, hps⟩ := List.forall_mem_cons.1 hps
    exact ih hps ⟨hp, hq⟩

theorem isProper_sequence (hps : ∀ p ∈ ps, p.IsProper) : (sequence ps).IsProper := by
  have hparts : ∀ p ∈ ps.flatMap parts, p.IsProper := by
    intro q hq
    obtain ⟨p, hp, hq⟩ := List.mem_flatMap.1 hq
    exact isProper_of_mem_parts (hps p hp) hq
  have hjoined : ∀ p ∈ ((ps.flatMap parts).foldr cons []).reverse, p.IsProper :=
    fun p hp => isProper_of_mem_foldr_cons hparts (List.mem_reverse.1 hp)
  unfold sequence
  split
  · trivial
  · rename_i last rest hlast
    rw [hlast] at hjoined
    obtain ⟨hlast, hrest⟩ := List.forall_mem_cons.1 hjoined
    exact isProper_foldl_seq hrest hlast

/-! ## Sets and alternatives -/

theorem spans_char : (literal [c]).Spans text i j ↔ text[i]? = some c ∧ j = i + 1 := by
  rw [Spans, ← List.head?_drop, List.length_singleton]
  apply and_congr_left'
  cases text.drop i with
  | nil => simp
  | cons d rest => simp [eq_comm]

theorem spans_single : (one (.single c)).Spans text i j ↔ (literal [c]).Spans text i j := by
  rw [spans_char]
  simp only [Spans, CharSet.contains_single]
  constructor
  · intro h
    obtain ⟨d, hd, rfl, hj⟩ := h
    exact ⟨hd, hj⟩
  · intro h
    exact ⟨c, h.1, rfl, h.2⟩

theorem spans_ofSet (hs : s.IsProper) : (ofSet s).Spans text i j ↔ (one s).Spans text i j := by
  unfold ofSet
  split
  · rename_i c honly
    rw [spans_char]
    simp only [Spans, CharSet.eq_iff_contains_of_only? hs honly]
    constructor
    · intro h
      exact ⟨c, h.1, rfl, h.2⟩
    · intro h
      obtain ⟨d, hd, rfl, hj⟩ := h
      exact ⟨hd, hj⟩
  · rfl

theorem isProper_ofSet (hs : s.IsProper) : (ofSet s).IsProper := by
  unfold ofSet
  split
  · trivial
  · exact hs

theorem exists_mem_alternatives :
    (∃ q ∈ p.alternatives, q.Spans text i j) ↔ p.Spans text i j := by
  induction p with
  | alt p q _ ihq => simp only [alternatives, List.exists_mem_cons_iff, Spans, ihq]
  | _ => simp [alternatives]

theorem isProper_of_mem_alternatives (hp : p.IsProper) (hq : q ∈ p.alternatives) :
    q.IsProper := by
  induction p with
  | alt p₁ p₂ _ ih =>
    cases List.mem_cons.1 hq with
    | inl heq => exact heq ▸ hp.1
    | inr hmem => exact ih hp.2 hmem
  | _ => exact List.mem_singleton.1 hq ▸ hp

theorem spans_foldl_alt : (ps.foldl (fun q p => alt p q) q).Spans text i j ↔
    ∃ p ∈ ps.reverse ++ [q], p.Spans text i j := by
  induction ps generalizing q with
  | nil => simp
  | cons p ps ih =>
    rw [List.foldl_cons, ih]
    simp only [List.reverse_cons, List.append_assoc, List.mem_append, List.mem_singleton,
      or_and_right, exists_or, exists_eq_left, Spans]

theorem isProper_foldl_alt (hps : ∀ p ∈ ps, p.IsProper) (hq : q.IsProper) :
    (ps.foldl (fun q p => alt p q) q).IsProper := by
  induction ps generalizing q with
  | nil => exact hq
  | cons p ps ih =>
    obtain ⟨hp, hps⟩ := List.forall_mem_cons.1 hps
    exact ih hps ⟨hp, hq⟩

/-- What is read of every pattern of a list says what the patterns are. -/
theorem eq_map_of_mapM {α : Type} {read : Expr → Option α} {xs : List α} (make : α → Expr)
    (hmake : ∀ p x, read p = some x → p = make x) (h : ps.mapM read = some xs) :
    ps = xs.map make := by
  have hmap := map_eq_of_mapM h
  clear h
  induction ps generalizing xs with
  | nil => rw [List.map_eq_nil_iff.1 hmap.symm, List.map_nil]
  | cons p ps ih =>
    cases xs with
    | nil => exact absurd hmap (List.cons_ne_nil _ _)
    | cons x xs =>
      obtain ⟨hfirst, hrest⟩ := List.cons.inj hmap
      rw [List.map_cons, ← hmake p x hfirst, ← ih hrest]

theorem isProper_foldl_union {sets : List CharSet} (hs : s.IsProper)
    (hsets : ∀ t ∈ sets, t.IsProper) : (sets.foldl CharSet.union s).IsProper := by
  induction sets generalizing s with
  | nil => exact hs
  | cons t sets ih =>
    obtain ⟨ht, hsets⟩ := List.forall_mem_cons.1 hsets
    exact ih (hs.union ht) hsets

theorem contains_foldl_union {sets : List CharSet} (hs : s.IsProper)
    (hsets : ∀ t ∈ sets, t.IsProper) : (sets.foldl CharSet.union s).contains c = true ↔
      s.contains c = true ∨ ∃ t ∈ sets, t.contains c = true := by
  induction sets generalizing s with
  | nil => simp
  | cons t sets ih =>
    obtain ⟨ht, hsets⟩ := List.forall_mem_cons.1 hsets
    rw [List.foldl_cons, ih (hs.union ht) hsets, CharSet.contains_union hs ht,
      List.exists_mem_cons_iff, or_assoc]

/-- Alternatives that are one set are each a character or each a set. -/
theorem asSet?_cases (h : asSet? ps = some s) :
    (∃ cs : List Char, ps = cs.map (fun c => literal [c]) ∧ s = .ofChars cs) ∨
      ∃ sets : List CharSet, ps = sets.map one ∧ s = sets.foldl CharSet.union .empty := by
  unfold asSet? at h
  simp only [Option.orElse_eq_orElse, Option.orElse_eq_or, Option.or_eq_some_iff,
    Option.map_eq_some_iff] at h
  -- The alternatives are tried as characters first, and then as sets.
  cases h with
  | inl hchars =>
    obtain ⟨cs, hcs, rfl⟩ := hchars
    exact .inl ⟨cs, eq_map_of_mapM _ (fun p c h => by grind) hcs, rfl⟩
  | inr hsets =>
    obtain ⟨-, sets, hsets, rfl⟩ := hsets
    exact .inr ⟨sets, eq_map_of_mapM _ (fun p t h => by grind) hsets, rfl⟩

theorem isProper_of_asSet? (hps : ∀ p ∈ ps, p.IsProper) (h : asSet? ps = some s) :
    s.IsProper := by
  cases asSet?_cases h with
  | inl hchars =>
    obtain ⟨cs, -, rfl⟩ := hchars
    exact CharSet.isProper_ofChars cs
  | inr hsets =>
    obtain ⟨sets, rfl, rfl⟩ := hsets
    exact isProper_foldl_union CharSet.isProper_empty fun t ht => hps _ (List.mem_map_of_mem ht)

theorem spans_of_asSet? (hps : ∀ p ∈ ps, p.IsProper) (h : asSet? ps = some s) :
    (one s).Spans text i j ↔ ∃ p ∈ ps, p.Spans text i j := by
  -- A choice of characters is a set of them, and a choice of sets is their union.
  cases asSet?_cases h with
  | inl hchars =>
    obtain ⟨cs, rfl, rfl⟩ := hchars
    simp only [List.mem_map, exists_exists_and_eq_and, spans_char]
    simp only [Spans, CharSet.contains_ofChars]
    constructor
    · intro h
      obtain ⟨c, hc, hmem, hj⟩ := h
      exact ⟨c, hmem, hc, hj⟩
    · intro h
      obtain ⟨c, hmem, hc, hj⟩ := h
      exact ⟨c, hc, hmem, hj⟩
  | inr hsets =>
    obtain ⟨sets, rfl, rfl⟩ := hsets
    have hsets : ∀ t ∈ sets, t.IsProper := fun t ht => hps _ (List.mem_map_of_mem ht)
    simp only [List.mem_map, exists_exists_and_eq_and, Spans, CharSet.contains_empty,
      contains_foldl_union CharSet.isProper_empty hsets, Bool.false_eq_true, false_or]
    constructor
    · intro h
      obtain ⟨c, hc, ⟨t, ht, hmem⟩, hj⟩ := h
      exact ⟨t, ht, c, hc, hmem, hj⟩
    · intro h
      obtain ⟨t, ht, c, hc, hmem, hj⟩ := h
      exact ⟨c, hc, ⟨t, ht, hmem⟩, hj⟩

theorem exists_mem_flatMap_alternatives :
    (∃ q ∈ ps.flatMap alternatives, q.Spans text i j) ↔ ∃ p ∈ ps, p.Spans text i j := by
  simp only [List.mem_flatMap]
  constructor
  · intro h
    obtain ⟨q, ⟨p, hp, hq⟩, hspans⟩ := h
    exact ⟨p, hp, exists_mem_alternatives.1 ⟨q, hq, hspans⟩⟩
  · intro h
    obtain ⟨p, hp, hspans⟩ := h
    obtain ⟨q, hq, hspans⟩ := exists_mem_alternatives.2 hspans
    exact ⟨q, ⟨p, hp, hq⟩, hspans⟩

theorem isProper_of_mem_flatMap_alternatives (hps : ∀ p ∈ ps, p.IsProper) :
    ∀ q ∈ ps.flatMap alternatives, q.IsProper := by
  intro q hq
  obtain ⟨p, hp, hq⟩ := List.mem_flatMap.1 hq
  exact isProper_of_mem_alternatives (hps p hp) hq

theorem isProper_anyOf (hps : ∀ p ∈ ps, p.IsProper) : (anyOf ps).IsProper := by
  have hflat := isProper_of_mem_flatMap_alternatives hps
  have hreverse : ∀ q ∈ (ps.flatMap alternatives).reverse, q.IsProper :=
    fun q hq => hflat q (List.mem_reverse.1 hq)
  unfold anyOf
  dsimp only
  split
  · exact CharSet.isProper_empty
  · rename_i p hsingle
    exact hreverse p (hsingle ▸ List.mem_singleton_self p)
  · rename_i last rest _ hlast
    split
    · rename_i s hset
      exact isProper_ofSet (isProper_of_asSet? hflat hset)
    · rw [hlast] at hreverse
      obtain ⟨hlast, hrest⟩ := List.forall_mem_cons.1 hreverse
      exact isProper_foldl_alt hrest hlast

/-- A choice without a common front matches what one of its alternatives matches. -/
theorem spans_anyOf (hps : ∀ p ∈ ps, p.IsProper) :
    (anyOf ps).Spans text i j ↔ ∃ p ∈ ps, p.Spans text i j := by
  rw [← exists_mem_flatMap_alternatives]
  unfold anyOf
  dsimp only
  split
  · -- No alternative at all, a single one, or several.
    rename_i hnil
    rw [List.reverse_eq_nil_iff.1 hnil]
    simp [Spans]
  · rename_i p hsingle
    rw [List.reverse_eq_cons_iff.1 hsingle]
    simp
  · rename_i last rest _ hlast
    split
    · rename_i s hset
      -- All alternatives together are one set.
      have hflat := isProper_of_mem_flatMap_alternatives hps
      rw [spans_ofSet (isProper_of_asSet? hflat hset), spans_of_asSet? hflat hset]
    · rw [spans_foldl_alt, List.reverse_eq_cons_iff.1 hlast]

/-! ## Choices with a common front -/

theorem commonParts_prefix : commonParts ps qs <+: ps ∧ commonParts ps qs <+: qs := by
  fun_induction commonParts ps qs with
  | case1 p ps qs ih =>
    obtain ⟨hleft, hright⟩ := ih
    exact ⟨List.cons_prefix_cons.2 ⟨rfl, hleft⟩, List.cons_prefix_cons.2 ⟨rfl, hright⟩⟩
  | case2 p ps q qs hne => exact ⟨List.nil_prefix, List.nil_prefix⟩
  | case3 ps qs hother => exact ⟨List.nil_prefix, List.nil_prefix⟩

theorem foldl_commonParts_prefix {lists : List (List Expr)} :
    ∀ l ∈ ps :: lists, lists.foldl commonParts ps <+: l := by
  induction lists generalizing ps with
  | nil =>
    intro l hl
    exact List.mem_singleton.1 hl ▸ List.prefix_refl ps
  | cons first lists ih =>
    have hcommon : commonParts ps first <+: ps ∧ commonParts ps first <+: first :=
      commonParts_prefix
    obtain ⟨hfold, hrest⟩ := List.forall_mem_cons.1 (@ih (commonParts ps first))
    exact List.forall_mem_cons.2 ⟨hfold.trans hcommon.1,
      List.forall_mem_cons.2 ⟨hfold.trans hcommon.2, hrest⟩⟩

/-- All alternatives begin with their common front. -/
theorem commonFront_prefix (hp : p ∈ ps) : commonFront ps <+: p.parts := by
  have hparts : p.parts ∈ ps.map parts := List.mem_map_of_mem hp
  unfold commonFront
  split
  · exact List.nil_prefix
  · rename_i front rest hfront
    split
    · exact foldl_commonParts_prefix p.parts (hfront ▸ hparts)
    · exact List.nil_prefix

/-- A pattern is its front and what it has behind that. -/
theorem spans_of_front {front : List Expr} (h : front <+: p.parts) : p.Spans text i j ↔
    ∃ k, SpansAll text front i k ∧ (sequence (p.parts.drop front.length)).Spans text k j := by
  have happend := List.prefix_iff_eq_append.1 h
  simp only [spans_sequence]
  rw [← spansAll_append, happend, spansAll_parts]

theorem exists_mem_iff_front {front : List Expr} (h : ∀ p ∈ ps, front <+: p.parts) :
    (∃ p ∈ ps, p.Spans text i j) ↔ ∃ k, SpansAll text front i k ∧
      ∃ q ∈ ps.map fun p => sequence (p.parts.drop front.length), q.Spans text k j := by
  simp only [List.mem_map, exists_exists_and_eq_and]
  constructor
  · intro hspans
    obtain ⟨p, hp, hspans⟩ := hspans
    obtain ⟨k, hfront, hbehind⟩ := (spans_of_front (h p hp)).1 hspans
    exact ⟨k, hfront, p, hp, hbehind⟩
  · intro hspans
    obtain ⟨k, hfront, p, hp, hbehind⟩ := hspans
    exact ⟨p, hp, (spans_of_front (h p hp)).2 ⟨k, hfront, hbehind⟩⟩

theorem isProper_behind_front {front : List Expr} (hps : ∀ p ∈ ps, p.IsProper) :
    ∀ q ∈ ps.map fun p => sequence (p.parts.drop front.length), q.IsProper := by
  intro q hq
  obtain ⟨p, hp, rfl⟩ := List.mem_map.1 hq
  exact isProper_sequence fun r hr => isProper_of_mem_parts (hps p hp) (List.mem_of_mem_drop hr)

theorem isProper_choice (hps : ∀ p ∈ ps, p.IsProper) : (choice ps).IsProper := by
  have hany := isProper_anyOf hps
  unfold choice
  split
  · rename_i p q heq
    rw [heq] at hany
    have halternatives : ∀ r ∈ (alt p q).alternatives, r.IsProper :=
      fun r hr => isProper_of_mem_alternatives hany hr
    dsimp only
    -- Without a common front the choice stays as it is.
    split
    · exact hany
    · refine isProper_sequence fun r hr => ?_
      cases List.mem_append.1 hr with
      | inl hfront =>
        have hbegins : commonFront (alt p q).alternatives <+: p.parts :=
          commonFront_prefix (List.mem_cons_self ..)
        exact isProper_of_mem_parts hany.1 (hbegins.subset hfront)
      | inr hbehind =>
        rw [List.mem_singleton.1 hbehind]
        exact isProper_anyOf (isProper_behind_front halternatives)
  · exact hany

/-- A choice matches what one of its alternatives matches. -/
theorem spans_choice (hps : ∀ p ∈ ps, p.IsProper) :
    (choice ps).Spans text i j ↔ ∃ p ∈ ps, p.Spans text i j := by
  have hany := isProper_anyOf hps
  rw [← spans_anyOf hps]
  unfold choice
  split
  · rename_i p q heq
    rw [heq] at hany ⊢
    have halternatives : ∀ r ∈ (alt p q).alternatives, r.IsProper :=
      fun r hr => isProper_of_mem_alternatives hany hr
    dsimp only
    split
    · rfl
    · -- The common front is read once, and then what an alternative has behind it.
      rw [spans_sequence, spansAll_append, ← exists_mem_alternatives,
        exists_mem_iff_front fun r hr => commonFront_prefix hr]
      simp only [spansAll_singleton, spans_anyOf (isProper_behind_front halternatives)]
  · rfl

/-! ## Repetitions -/

theorem clamped_le {least : Nat} {most : Option Nat} (hbounds : ∀ m ∈ most, least ≤ m) :
    ∀ m ∈ some (min (most.getD 1) 1), min least 1 ≤ m := by
  intro m hm
  rw [← Option.some.inj hm]
  cases most with
  | none => exact Nat.min_le_right least 1
  | some m =>
    have hle := hbounds m rfl
    rw [Option.getD_some]
    omega

theorem isProper_repeated {least : Nat} {most : Option Nat} {greedy : Bool}
    (hbounds : ∀ m ∈ most, least ≤ m) (hp : p.IsProper) :
    (p.repeated least most greedy).IsProper := by
  unfold repeated
  split
  rename_i least' most' hclamped
  have hbounds' : ∀ m ∈ most', least' ≤ m := by
    split at hclamped
    · obtain ⟨rfl, rfl⟩ := Prod.mk.inj hclamped
      exact clamped_le hbounds
    · obtain ⟨rfl, rfl⟩ := Prod.mk.inj hclamped
      exact hbounds
  split
  · trivial
  · split
    · exact hp
    · exact ⟨hbounds', hp⟩

end Expr

end Morphology.Pattern
