import Mathlib.Algebra.Order.BigOperators.Group.List
import Mathlib.Algebra.Order.Ring.Nat
import Mathlib.Logic.Relation
import Morphology.Proofs.Transducer.Trie
import Morphology.Transducer.Traversal

/-!
# Ways of reading

`Transducer.successors` lists the frames one step further.  A reading says the same as a relation,
with one constructor for each way in which a text is read.  Every reading brings a frame closer to
the end, so that only finitely many frames are visited.

## Main definitions

* `Transducer.Reads` — a frame is one step further
* `Transducer.Visits` — a frame is some steps further
* `Transducer.potential` — a bound for the number of frames still to be visited

## Main statements

* `Transducer.mem_successors_iff` — the readings are the steps
* `Transducer.sum_potential_successors_lt` — each step spends some of the potential
-/

namespace Morphology

universe u

namespace Transducer

variable {α : Type u} {t : Transducer α} {input : List Char} {maxEdits : Nat} {f f' : Frame}

/-! ## Readings -/

/-- A frame is one step further. -/
inductive Reads (t : Transducer α) (input : List Char) (maxEdits : Nat) (f : Frame) : Frame → Prop
  /-- A character is read as it stands. -/
  | exact {c : Char} {s : Nat} {node : Trie} (hc : input[f.pos]? = some c) (hplain : c ≠ wildcard)
      (hs : t.alphabet.number? c = some s) (hnode : f.node.child? s = some node) :
      Reads t input maxEdits f (f.advance node 1 [c] none)
  /-- A wildcard is read as any character. -/
  | wild {s : Nat} {node : Trie} (hc : input[f.pos]? = some wildcard)
      (hnode : (s, node) ∈ f.node.arcs) :
      Reads t input maxEdits f (f.advance node 1 [wildcard] none)
  | substitute {c : Char} {s : Nat} {node : Trie} (hedits : f.edits.length < maxEdits)
      (hc : input[f.pos]? = some c) (hplain : c ≠ wildcard) (hnode : (s, node) ∈ f.node.arcs)
      (hother : some s ≠ t.alphabet.number? c) :
      Reads t input maxEdits f (f.advance node 1 [wildcard] (some .substitute))
  | delete (hedits : f.edits.length < maxEdits) (harcs : f.node.arcs ≠ [])
      (hpos : f.pos < input.length) (hsegment : f.segment ≠ [])
      (hlast : f.lastEdit? ≠ some .insert) :
      Reads t input maxEdits f (f.advance f.node 1 [] (some .delete))
  | insert {s : Nat} {node : Trie} (hedits : f.edits.length < maxEdits)
      (hlast : f.lastEdit? ≠ some .delete) (hnode : (s, node) ∈ f.node.arcs) :
      Reads t input maxEdits f (f.advance node 0 [wildcard] (some .insert))
  | transpose {c d : Char} {first second : Nat} {mid node : Trie}
      (hedits : f.edits.length < maxEdits) (hc : input[f.pos]? = some c)
      (hd : input[f.pos + 1]? = some d) (hfirst : t.alphabet.number? d = some first)
      (hsecond : t.alphabet.number? c = some second) (hmid : f.node.child? first = some mid)
      (hnode : mid.child? second = some node) (hne : first ≠ second) :
      Reads t input maxEdits f (f.advance node 2 [d, c] (some .transpose))

private theorem reads_of_mem_exactStep (h : f' ∈ t.exactStep input f) :
    Reads t input maxEdits f f' := by
  unfold exactStep at h
  split at h
  · exact absurd h List.not_mem_nil
  · rename_i c hc
    split at h
    · -- A wildcard leads down every arc.
      rename_i hwild
      obtain ⟨⟨s, node⟩, hnode, rfl⟩ := List.mem_map.1 h
      rw [hwild] at hc ⊢
      exact .wild hc hnode
    · -- Any other character leads down its own arc, if there is one.
      rename_i hplain
      split at h
      · rename_i node hnode
        obtain ⟨s, hs, hnode⟩ := Option.bind_eq_some_iff.1 hnode
        obtain rfl := List.mem_singleton.1 h
        exact .exact hc hplain hs hnode
      · exact absurd h List.not_mem_nil

private theorem reads_of_mem_substitutions (hedits : f.edits.length < maxEdits)
    (h : f' ∈ t.substitutions input f) : Reads t input maxEdits f f' := by
  unfold substitutions at h
  split at h
  · exact absurd h List.not_mem_nil
  · rename_i c hc
    split at h
    · exact absurd h List.not_mem_nil
    · rename_i hplain
      obtain ⟨⟨s, node⟩, hnode, rfl⟩ := List.mem_map.1 h
      obtain ⟨hnode, hother⟩ := List.mem_filter.1 hnode
      exact .substitute hedits hc hplain hnode (by simpa using hother)

private theorem reads_of_mem_deletions (hedits : f.edits.length < maxEdits)
    (harcs : f.node.arcs ≠ []) (h : f' ∈ deletions input f) : Reads t input maxEdits f f' := by
  unfold deletions at h
  split at h
  · rename_i hcond
    simp only [Bool.and_eq_true, decide_eq_true_eq, Bool.not_eq_true', bne_iff_ne,
      List.isEmpty_eq_false_iff] at hcond
    obtain rfl := List.mem_singleton.1 h
    exact .delete hedits harcs hcond.1.1 hcond.1.2 hcond.2
  · exact absurd h List.not_mem_nil

private theorem reads_of_mem_insertions (hedits : f.edits.length < maxEdits)
    (h : f' ∈ insertions f) : Reads t input maxEdits f f' := by
  unfold insertions at h
  split at h
  · rename_i hlast
    obtain ⟨⟨s, node⟩, hnode, rfl⟩ := List.mem_map.1 h
    exact .insert hedits (by simpa using hlast) hnode
  · exact absurd h List.not_mem_nil

private theorem reads_of_mem_transpositions (hedits : f.edits.length < maxEdits)
    (h : f' ∈ t.transpositions input f) : Reads t input maxEdits f f' := by
  unfold transpositions at h
  split at h
  · rename_i c d hc hd
    split at h
    · rename_i first second hfirst hsecond
      split at h
      · rename_i node hnode
        obtain ⟨mid, hmid, hnode⟩ := Option.bind_eq_some_iff.1 hnode
        split at h
        · exact absurd h List.not_mem_nil
        · -- Two arcs of one symbol swap nothing.
          rename_i hne
          obtain rfl := List.mem_singleton.1 h
          exact .transpose hedits hc hd hfirst hsecond hmid hnode hne
      · exact absurd h List.not_mem_nil
    · exact absurd h List.not_mem_nil
  · exact absurd h List.not_mem_nil

theorem reads_of_mem_successors (h : f' ∈ t.successors input maxEdits f) :
    Reads t input maxEdits f f' := by
  unfold successors at h
  rcases List.mem_append.1 h with h | h
  · exact reads_of_mem_exactStep h
  · split at h
    · -- Edits are tried while some are left, and only at a node with arcs.
      rename_i hcond
      simp only [Bool.and_eq_true, decide_eq_true_eq, Bool.not_eq_true',
        List.isEmpty_eq_false_iff] at hcond
      simp only [List.mem_append] at h
      rcases h with ((h | h) | h) | h
      · exact reads_of_mem_substitutions hcond.1 h
      · exact reads_of_mem_deletions hcond.1 hcond.2 h
      · exact reads_of_mem_insertions hcond.1 h
      · exact reads_of_mem_transpositions hcond.1 h
    · exact absurd h List.not_mem_nil

/-- What an edit leads to is a step further, where edits are left and arcs too. -/
private theorem mem_successors_of_edit (hedits : f.edits.length < maxEdits)
    (harcs : f.node.arcs ≠ [])
    (h : f' ∈ t.substitutions input f ++ deletions input f ++ insertions f ++
      t.transpositions input f) : f' ∈ t.successors input maxEdits f := by
  unfold successors
  rw [if_pos (by simpa using ⟨hedits, harcs⟩)]
  exact List.mem_append_right _ h

theorem mem_successors_of_reads (h : Reads t input maxEdits f f') :
    f' ∈ t.successors input maxEdits f := by
  cases h with
  | exact hc hplain hs hnode =>
    -- What is read as it stands comes in front of the edits.
    apply List.mem_append_left _
    simp [exactStep, hc, hplain, hs, hnode]
  | @wild s node hc hnode =>
    apply List.mem_append_left _
    simp only [exactStep, hc, if_pos]
    exact List.mem_map.2 ⟨(s, node), hnode, rfl⟩
  | @substitute c s node hedits hc hplain hnode hother =>
    apply mem_successors_of_edit hedits (List.ne_nil_of_mem hnode)
    simp only [List.mem_append, substitutions, hc, if_neg hplain]
    exact .inl (.inl (.inl (List.mem_map.2 ⟨(s, node),
      List.mem_filter.2 ⟨hnode, by simpa using hother⟩, rfl⟩)))
  -- The node has arcs, so that edits are tried at it.
  | delete hedits harcs hpos hsegment hlast =>
    apply mem_successors_of_edit hedits harcs
    have hmem : f.advance f.node 1 [] (some .delete) ∈ deletions input f := by
      unfold deletions
      rw [if_pos (by simp [hpos, hsegment, hlast])]
      exact List.mem_singleton_self _
    simp only [List.mem_append]
    exact .inl (.inl (.inr hmem))
  | @insert s node hedits hlast hnode =>
    apply mem_successors_of_edit hedits (List.ne_nil_of_mem hnode)
    have hmem : f.advance node 0 [wildcard] (some .insert) ∈ insertions f := by
      unfold insertions
      rw [if_pos (by simpa using hlast)]
      exact List.mem_map.2 ⟨(s, node), hnode, rfl⟩
    simp only [List.mem_append]
    exact .inl (.inr hmem)
  | transpose hedits hc hd hfirst hsecond hmid hnode hne =>
    apply mem_successors_of_edit hedits (List.ne_nil_of_mem (Trie.mem_arcs_of_child? hmid))
    apply List.mem_append_right _
    simp [transpositions, hc, hd, hfirst, hsecond, hmid, hnode, hne]

/-- The readings are the steps. -/
theorem mem_successors_iff :
    f' ∈ t.successors input maxEdits f ↔ Reads t input maxEdits f f' :=
  ⟨reads_of_mem_successors, mem_successors_of_reads⟩

theorem Reads.start_eq (h : Reads t input maxEdits f f') : f'.start = f.start := by
  cases h with
  | exact | wild | substitute | delete | insert | transpose => rfl

/-! ## Frames visited -/

/-- A frame is some steps further. -/
def Visits (t : Transducer α) (input : List Char) (maxEdits : Nat) : Frame → Frame → Prop :=
  Relation.ReflTransGen (Reads t input maxEdits)

theorem Visits.start_eq (h : Visits t input maxEdits f f') : f'.start = f.start := by
  induction h with
  | refl => rfl
  | tail _ hread ih => rw [hread.start_eq, ih]

/-- A property of a frame that every reading keeps holds of every frame visited. -/
theorem Visits.keeps {P : Frame → Prop} (hstep : ∀ f f', P f → Reads t input maxEdits f f' → P f')
    (h : Visits t input maxEdits f f') (hf : P f) : P f' := by
  induction h with
  | refl => exact hf
  | tail _ hread ih => exact hstep _ _ ih hread

/-- The node of a frame is part of the trie. -/
structure Fits (t : Transducer α) (f : Frame) : Prop where
  breadth : f.node.breadth ≤ t.root.breadth
  weight : f.node.weight ≤ t.root.weight

theorem fits_root (t : Transducer α) (start : Nat) : Fits t (.root t.root start) :=
  ⟨Nat.le_refl _, Nat.le_refl _⟩

theorem Fits.child {s : Nat} {node : Trie} (h : Fits t f) (hnode : (s, node) ∈ f.node.arcs)
    (hf' : f'.node = node) : Fits t f' where
  breadth := hf' ▸ (Trie.breadth_le_of_mem hnode).trans h.breadth
  weight := hf' ▸ (Trie.weight_le_of_mem hnode).trans h.weight

theorem Fits.reads (h : Fits t f) (hread : Reads t input maxEdits f f') : Fits t f' := by
  cases hread with
  | exact _ _ _ hnode => exact h.child (Trie.mem_arcs_of_child? hnode) rfl
  | wild _ hnode => exact h.child hnode rfl
  | substitute _ _ _ hnode _ => exact h.child hnode rfl
  | delete => exact ⟨h.breadth, h.weight⟩
  | insert _ _ hnode => exact h.child hnode rfl
  | @transpose _ _ _ _ mid _ _ _ _ _ _ hmid hnode _ =>
    have hmid' : Fits t { f with node := mid } := h.child (Trie.mem_arcs_of_child? hmid) rfl
    exact hmid'.child (Trie.mem_arcs_of_child? hnode) rfl

/-! ## Potential -/

/-- The number of steps that may still be made from a frame one behind the other: down the trie, or
by deletions. -/
def rank (input : List Char) (maxEdits : Nat) (f : Frame) : Nat :=
  f.node.height + min (maxEdits - f.edits.length) (input.length - f.pos)

theorem rank_advance_le (input : List Char) (maxEdits : Nat) (f : Frame) (node : Trie)
    (consumed : Nat) (emitted : List Char) (kind : Option EditKind) :
    rank input maxEdits (f.advance node consumed emitted kind) ≤
      node.height + min (maxEdits - f.edits.length) (input.length - f.pos) := by
  cases kind with
  | none =>
    simp only [rank, Frame.advance]
    omega
  | some k =>
    simp only [rank, Frame.advance, List.length_append, List.length_singleton]
    omega

/-- Every step of a frame lowers its `rank`: it goes down an arc or spends an edit or a
character. -/
theorem Reads.rank_lt (h : Reads t input maxEdits f f') :
    rank input maxEdits f' < rank input maxEdits f := by
  have hdown {s : Nat} {node : Trie} {consumed : Nat} {emitted : List Char} {kind : Option EditKind}
      (hnode : (s, node) ∈ f.node.arcs) :
      rank input maxEdits (f.advance node consumed emitted kind) < rank input maxEdits f := by
    have hle := rank_advance_le input maxEdits f node consumed emitted kind
    have hlt := Trie.height_lt_of_mem hnode
    simp only [rank] at hle ⊢
    omega
  cases h with
  | exact _ _ _ hnode => exact hdown (Trie.mem_arcs_of_child? hnode)
  | wild _ hnode => exact hdown hnode
  | substitute _ _ _ hnode _ => exact hdown hnode
  | delete hedits _ hpos _ _ =>
    -- The node stays, but an edit and a character are spent.
    simp only [rank, Frame.advance, List.length_append, List.length_singleton]
    omega
  | insert _ _ hnode => exact hdown hnode
  -- Two arcs down and an edit less.
  | transpose _ _ _ _ _ hmid hnode _ =>
    have hlt := Trie.height_lt_of_mem (Trie.mem_arcs_of_child? hmid)
    have hlt' := Trie.height_lt_of_mem (Trie.mem_arcs_of_child? hnode)
    simp only [rank, Frame.advance, List.length_append, List.length_singleton]
    omega

/-- One more than the greatest number of successors of a frame. -/
def branching (t : Transducer α) : Nat := 3 * t.root.breadth + 4

/-- More than the number of frames visited from a frame. -/
def potential (t : Transducer α) (input : List Char) (maxEdits : Nat) (f : Frame) : Nat :=
  t.branching ^ (rank input maxEdits f + 1)

private theorem length_exactStep_le (input : List Char) (h : Fits t f) :
    (t.exactStep input f).length ≤ t.root.breadth + 1 := by
  have harcs := (Trie.length_arcs_le_breadth f.node).trans h.breadth
  unfold exactStep
  split
  · simp
  · split
    · rw [List.length_map]
      omega
    · split <;> simp

private theorem length_edits_le (input : List Char) (h : Fits t f) :
    (t.substitutions input f ++ deletions input f ++ insertions f ++
      t.transpositions input f).length ≤ 2 * t.root.breadth + 2 := by
  have harcs := (Trie.length_arcs_le_breadth f.node).trans h.breadth
  have hsub : (t.substitutions input f).length ≤ t.root.breadth := by
    unfold substitutions
    split
    · simp
    · split
      · simp
      · rw [List.length_map]
        exact (List.length_filter_le _ _).trans harcs
  have hdel : (deletions input f).length ≤ 1 := by
    unfold deletions
    split <;> simp
  have hins : (insertions f).length ≤ t.root.breadth := by
    unfold insertions
    split
    · rw [List.length_map]
      exact harcs
    · simp
  have htra : (t.transpositions input f).length ≤ 1 := by
    unfold transpositions
    split
    · split
      · split
        · split <;> simp
        · simp
      · simp
    · simp
  -- Substitutions and insertions use each arc at most once, the other edits none or two.
  simp only [List.length_append]
  omega

theorem length_successors_lt (h : Fits t f) :
    (t.successors input maxEdits f).length < t.branching := by
  have hexact := length_exactStep_le input h
  have hedits := length_edits_le input h
  unfold successors branching
  rw [List.length_append]
  split
  · omega
  · simp only [List.length_nil]
    omega

/-- Each step spends some of the `potential` of a frame: there are fewer successors than
`branching`, all of lower rank. -/
theorem sum_potential_successors_lt (input : List Char) (maxEdits : Nat) (h : Fits t f) :
    ((t.successors input maxEdits f).map (t.potential input maxEdits)).sum <
      t.potential input maxEdits f := by
  have hpos : 0 < t.branching := by
    unfold branching
    omega
  have heach : ∀ n ∈ (t.successors input maxEdits f).map (t.potential input maxEdits),
      n ≤ t.branching ^ rank input maxEdits f := by
    intro n hn
    obtain ⟨f', hf', rfl⟩ := List.mem_map.1 hn
    exact Nat.pow_le_pow_right hpos (mem_successors_iff.1 hf').rank_lt
  have hsum := List.sum_le_card_nsmul _ _ heach
  rw [List.length_map, Nat.nsmul_eq_mul] at hsum
  calc ((t.successors input maxEdits f).map (t.potential input maxEdits)).sum
      ≤ (t.successors input maxEdits f).length * t.branching ^ rank input maxEdits f := hsum
    _ < t.branching * t.branching ^ rank input maxEdits f :=
      Nat.mul_lt_mul_of_pos_right (length_successors_lt h) (Nat.pow_pos hpos)
    _ = t.potential input maxEdits f := by
      rw [potential, Nat.pow_succ, Nat.mul_comm]

end Transducer

end Morphology
