import Mathlib.Data.List.Nodup
import Morphology.Proofs.Transducer.Corrections
import Morphology.Proofs.Transducer.ExactLookup

/-!
# All matches without edits

Without edits the matches of a text are the places where it has a key, each with every value of the
key once.  If the text has no wildcard, a traversal is at one place of the trie at a time, so that
it makes no more steps between two matches than the text and the longest key allow.

## Main definitions

* `KeyMatch.place` — where a match is, and the value found there
* `Traversal.Narrow` — a traversal that is at one place of the trie at a time
* `Traversal.work` — a bound for the steps without a report

## Main statements

* `Transducer.Stores.mem_places_iff` — the matches are the places of the keys
* `Traversal.Narrow.step` — a narrow traversal stays narrow, and every silent step spends work
* `Transducer.completes_of_work_lt` — little work is done before the search is given up
* `Transducer.exact_lookup` — the matches of a text, and the values found at a place
-/

namespace Morphology

universe u

/-! ## Places of keys -/

/-- Where a match is, and the value found there. -/
def KeyMatch.place (m : KeyMatch) : Nat × Nat × Nat :=
  (m.start, m.stop, m.value)

instance instDecidableKeyAt : (key text : List Char) → Decidable (KeyAt key text)
  | [], _ => .isTrue trivial
  | _ :: _, [] => .isFalse id
  | c :: key, d :: text =>
    have := instDecidableKeyAt key text
    inferInstanceAs (Decidable ((d = c ∨ d = wildcard) ∧ KeyAt key text))

/-- A text that begins with the characters of a key, or with wildcards for them, begins with the
key. -/
theorem keyAt_of_forall₂_take {key text : List Char} {n : Nat}
    (h : List.Forall₂ (fun c d => c = d ∨ c = wildcard) (text.take n) key) : KeyAt key text := by
  induction key generalizing text n with
  | nil => trivial
  | cons c key ih =>
    cases text with
    | nil => simp at h
    | cons d text =>
      cases n with
      | zero => simp at h
      | succ n =>
        obtain ⟨hd, h⟩ := List.forall₂_cons.1 h
        exact ⟨hd, ih h⟩

namespace Transducer

open Traversal (Valid Step Comes)

variable {α : Type u} {t : Transducer α} {entries : List (List Char × α)} {input : List Char}
  {tr tr' : Traversal} {pos : Nat}

theorem start_mem_range_of_mem_matchesOf (hstart : IsStart tr) {m : KeyMatch}
    (hm : m ∈ t.matchesOf tr) :
    tr.nextStart ≤ m.start ∧ m.start < tr.startLimit ∧ m.start ≤ tr.input.length := by
  obtain ⟨f, v, hcomes, -, rfl⟩ := found_of_mem_matchesOf hstart hm
  exact ⟨hcomes.first, hcomes.limit, hcomes.length⟩

namespace Stores

/-- A match without edits is at the place of a key. -/
theorem keyAt_of_mem_matchesOf (hs : t.Stores entries) (hw : t.WellNumbered) (hstart : IsStart tr)
    (hedits : tr.maxEdits = 0) {m : KeyMatch} (hm : m ∈ t.matchesOf tr) :
    m.segment = tr.input.extract m.start m.stop ∧ ∃ key x, entries[m.value]? = some (key, x) ∧
      m.stop = m.start + key.length ∧ KeyAt key (tr.input.drop m.start) := by
  obtain ⟨key, x, hentry, hcorrects⟩ := hs.corrects_of_mem_matchesOf hw hstart hm
  obtain ⟨hnone, -, hstop, -⟩ := hs.exact_of_mem_matchesOf hstart hedits hm
  have hsegment := hcorrects.plain hnone
  have hkey := hcorrects.segment
  refine ⟨hsegment, key, x, hentry, ?_, ?_⟩
  · rw [hstop, hkey.length_eq]
  · rw [hsegment, List.extract_eq_take_drop] at hkey
    exact keyAt_of_forall₂_take hkey

/-- The values found at a place are those of keys that the text has there. -/
theorem keyAt_of_mem_valuesAt (hs : t.Stores entries) (hw : t.WellNumbered) {x : α}
    (hx : x ∈ t.valuesAt input pos) : ∃ key, (key, x) ∈ entries ∧ KeyAt key (input.drop pos) := by
  obtain ⟨m, hm, hvalue⟩ := List.mem_filterMap.1 hx
  have hstart := isStart_anchored pos input
  obtain ⟨-, key, x', hentry, -, hkey⟩ := hs.keyAt_of_mem_matchesOf hw hstart rfl hm
  obtain ⟨hge, hlt, -⟩ := start_mem_range_of_mem_matchesOf hstart hm
  obtain rfl : m.start = pos := by
    simp only [Traversal.anchored] at hge hlt
    omega
  rw [hs.getElem?_values, hentry] at hvalue
  obtain rfl : x' = x := Option.some.inj hvalue
  exact ⟨key, List.mem_of_getElem? hentry, hkey⟩

/-- Without edits no place is reported twice with one value. -/
theorem nodup_places (hs : t.Stores entries) (hw : t.WellNumbered) (hstart : IsStart tr)
    (hedits : tr.maxEdits = 0) : ((t.matchesOf tr).map KeyMatch.place).Nodup := by
  have hnodup := nodup_matchesOf (t := t) hstart
  refine List.Nodup.map_on (fun m hm m' hm' heq => ?_) hnodup.of_map
  obtain ⟨hsegment, -⟩ := hs.keyAt_of_mem_matchesOf hw hstart hedits hm
  obtain ⟨hsegment', -⟩ := hs.keyAt_of_mem_matchesOf hw hstart hedits hm'
  simp only [KeyMatch.place, Prod.mk.injEq] at heq
  obtain ⟨hfirst, hstop, hvalue⟩ := heq
  -- The segment is the text between the ends.
  refine List.inj_on_of_nodup_map hnodup hm hm' ?_
  simp only [KeyMatch.identity, hsegment, hsegment', hfirst, hstop, hvalue]

/-- Without edits the places of the matches are the places of the keys, by `KeyAt`. -/
theorem mem_places_iff (hs : t.Stores entries) (hw : t.WellNumbered) (hstart : IsStart tr)
    (hedits : tr.maxEdits = 0) (hcompletes : t.completes tr = true) (first stop v : Nat) :
    (first, stop, v) ∈ (t.matchesOf tr).map KeyMatch.place ↔
      (tr.nextStart ≤ first ∧ first < tr.startLimit ∧ first ≤ tr.input.length) ∧
        ∃ key x, entries[v]? = some (key, x) ∧ stop = first + key.length ∧
          KeyAt key (tr.input.drop first) := by
  constructor
  · intro hmem
    obtain ⟨m, hm, heq⟩ := List.mem_map.1 hmem
    obtain ⟨rfl, rfl, rfl⟩ : m.start = first ∧ m.stop = stop ∧ m.value = v := by
      simpa [KeyMatch.place] using heq
    exact ⟨start_mem_range_of_mem_matchesOf hstart hm,
      (hs.keyAt_of_mem_matchesOf hw hstart hedits hm).2⟩
  · -- A key that the text has is found, and the match is as long as the key.
    rintro ⟨⟨hnext, hlimit, hlength⟩, key, x, hentry, rfl, hkey⟩
    obtain ⟨m, hm, hfirst, rfl, hsegment⟩ :=
      hs.exists_mem_matchesOf hstart hcompletes hentry hnext hlimit hlength hkey
    obtain ⟨-, -, hstop, -⟩ := hs.exact_of_mem_matchesOf hstart hedits hm
    refine List.mem_map.2 ⟨m, hm, ?_⟩
    simp only [KeyMatch.place, hfirst, hstop, hsegment]

/-- The values of some entries are found behind their numbers. -/
theorem filterMap_values (hs : t.Stores entries) (p : List Char × α → Bool) :
    ((entries.zipIdx.filter fun e => p e.1).map (·.2)).filterMap (t.values[·]?) =
      (entries.filter p).map (·.2) := by
  have hfilter : (entries.zipIdx.filter fun e => p e.1).map (·.1) = entries.filter p := by
    have := List.filter_map (p := p) (f := Prod.fst) (l := entries.zipIdx)
    rw [List.zipIdx_map_fst] at this
    exact this.symm
  -- The number of an entry is that of its value.
  have hvalue : ∀ e ∈ entries.zipIdx.filter fun e => p e.1, t.values[e.2]? = some e.1.2 := by
    intro e he
    have hentry := List.mem_zipIdx_iff_getElem?.1 (List.mem_filter.1 he).1
    rw [hs.getElem?_values, hentry]
    rfl
  calc ((entries.zipIdx.filter fun e => p e.1).map (·.2)).filterMap (t.values[·]?)
      = (entries.zipIdx.filter fun e => p e.1).filterMap fun e => t.values[e.2]? := by
        rw [List.filterMap_map]
        rfl
    _ = (entries.zipIdx.filter fun e => p e.1).filterMap fun e => some e.1.2 :=
        List.filterMap_congr hvalue
    _ = ((entries.zipIdx.filter fun e => p e.1).map (·.1)).map (·.2) := by
        rw [List.map_map, List.filterMap_eq_map']
        rfl
    _ = (entries.filter p).map (·.2) := by
        rw [hfilter]

/-- The values found at a place (`valuesAt`) are those of the keys that the text has there, each
once. -/
theorem valuesAt_perm (hs : t.Stores entries) (hw : t.WellNumbered) (hpos : pos ≤ input.length)
    (hcompletes : t.completes (.anchored pos input) = true) :
    (t.valuesAt input pos).Perm
      ((entries.filter fun e => KeyAt e.1 (input.drop pos)).map (·.2)) := by
  have hstart := isStart_anchored pos input
  have hplaces := hs.mem_places_iff hw hstart rfl hcompletes
  -- The numbers of the values reported, and those of the keys that the text has.
  let reported := (t.matchesOf (.anchored pos input)).map (·.value)
  let present := (entries.zipIdx.filter fun e => decide (KeyAt e.1.1 (input.drop pos))).map (·.2)
  have hfirst {m : KeyMatch} (hm : m ∈ t.matchesOf (.anchored pos input)) : m.start = pos := by
    obtain ⟨hge, hlt, -⟩ := start_mem_range_of_mem_matchesOf hstart hm
    simp only [Traversal.anchored] at hge hlt
    omega
  -- Two matches of one value begin and end at the same place.
  have hreported : reported.Nodup := by
    refine List.Nodup.map_on (fun m hm m' hm' heq => ?_)
      (nodup_matchesOf (t := t) hstart).of_map
    obtain ⟨-, key, x, hentry, hstop, -⟩ := hs.keyAt_of_mem_matchesOf hw hstart rfl hm
    obtain ⟨-, key', x', hentry', hstop', -⟩ := hs.keyAt_of_mem_matchesOf hw hstart rfl hm'
    rw [← heq, hentry] at hentry'
    obtain ⟨rfl, -⟩ := Prod.mk.inj (Option.some.inj hentry')
    refine List.inj_on_of_nodup_map (hs.nodup_places hw hstart rfl) hm hm' ?_
    simp only [KeyMatch.place, hstop, hstop', hfirst hm, hfirst hm', heq]
  have hpresent : present.Nodup := by
    have hall : (entries.zipIdx.map (·.2)).Nodup := by
      rw [List.zipIdx_map_snd]
      exact List.nodup_range'
    exact hall.sublist (List.filter_sublist.map _)
  -- A number is reported just if the key of its entry is there.
  have hmem (n : Nat) : n ∈ reported ↔ n ∈ present := by
    have hat : n ∈ reported ↔
        ∃ stop, (pos, stop, n) ∈ (t.matchesOf (.anchored pos input)).map KeyMatch.place := by
      simp only [reported, List.mem_map, KeyMatch.place, Prod.mk.injEq]
      constructor
      · rintro ⟨m, hm, rfl⟩
        exact ⟨m.stop, m, hm, hfirst hm, rfl, rfl⟩
      · rintro ⟨stop, m, hm, -, -, rfl⟩
        exact ⟨m, hm, rfl⟩
    rw [hat]
    simp only [hplaces, present, List.mem_map, List.mem_filter, List.mem_zipIdx_iff_getElem?]
    constructor
    · rintro ⟨stop, -, key, x, hentry, -, hkey⟩
      exact ⟨((key, x), n), ⟨hentry, decide_eq_true hkey⟩, rfl⟩
    · rintro ⟨⟨⟨key, x⟩, n⟩, ⟨hentry, hkey⟩, rfl⟩
      exact ⟨_, ⟨Nat.le_refl pos, Nat.lt_succ_self pos, hpos⟩, key, x, hentry, rfl,
        of_decide_eq_true hkey⟩
  have hperm : reported.Perm present := (List.perm_ext_iff_of_nodup hreported hpresent).2 hmem
  have hvalues : t.valuesAt input pos = reported.filterMap (t.values[·]?) := by
    rw [List.filterMap_map]
    rfl
  rw [hvalues, ← hs.filterMap_values]
  exact hperm.filterMap _

end Stores

/-! ## Reading without a choice -/

/-- Without wildcards and edits a text is read in at most one way. -/
theorem length_successors_le_one (hplain : wildcard ∉ input) (f : Frame) :
    (t.successors input 0 f).length ≤ 1 := by
  simp only [successors, Nat.not_lt_zero, decide_false, Bool.false_and, Bool.false_eq_true,
    if_false, List.append_nil, exactStep]
  split
  · exact Nat.zero_le _
  · rename_i c hc
    have hne : c ≠ wildcard := by
      rintro rfl
      exact hplain (List.mem_of_getElem? hc)
    rw [if_neg hne]
    split <;> simp

/-- Without edits a reading goes down the trie and on in the text. -/
theorem Reads.goes_on {f f' : Frame} (h : Reads t input 0 f f') :
    f'.pos = f.pos + 1 ∧ f'.pos ≤ input.length ∧ f'.node.height < f.node.height := by
  have hon {c : Char} {s : Nat} {node : Trie} (hc : input[f.pos]? = some c)
      (hnode : (s, node) ∈ f.node.arcs) : f.pos + 1 ≤ input.length ∧ node.height < f.node.height :=
    ⟨(List.getElem?_eq_some_iff.1 hc).1, Trie.height_lt_of_mem hnode⟩
  cases h with
  | exact hc _ _ hnode => exact ⟨rfl, hon hc (Trie.mem_arcs_of_child? hnode)⟩
  | wild hc hnode => exact ⟨rfl, hon hc hnode⟩
  | substitute hedits | delete hedits | insert hedits | transpose hedits =>
    exact absurd hedits (Nat.not_lt_zero _)

end Transducer

namespace Traversal

open Transducer

variable {α : Type u} {t : Transducer α} {tr tr' : Traversal} {first : Nat}

/-- No value is twice at a frame that a traversal comes to. -/
theorem Comes.nodup_values (hw : t.WellNumbered) (hordered : t.root.Ordered) {f : Frame}
    (h : Comes t tr first f) : f.node.values.Nodup := by
  obtain ⟨symbols, hspells⟩ := h.visits.spells hw ⟨[], .root hordered h.length⟩
  have hfind := hspells.path []
  rw [List.append_nil] at hfind
  change (f.node.find []).Nodup
  rw [← hfind]
  exact hw.values symbols

/-- A traversal that is at one place of the trie at a time.  Whatever it has reported from the last
start lies behind that place, so that nothing is met twice. -/
structure Narrow (tr : Traversal) : Prop where
  plain : wildcard ∉ tr.input
  edits : tr.maxEdits = 0
  stack : tr.stack.length ≤ 1
  seen : ∀ f ∈ tr.stack, ∀ k ∈ tr.seen, k.1 < f.pos
  pending : ∀ f₀ vs, tr.pending = some (f₀, vs) → vs.Nodup ∧
    (∀ v ∈ vs, (f₀.pos, v, f₀.segment) ∉ tr.seen) ∧ ∀ f ∈ tr.stack, f₀.pos < f.pos

/-- A `Narrow` traversal stays narrow: it has one frame at most, and no value is seen twice. -/
theorem Narrow.step (hw : t.WellNumbered) (hordered : t.root.Ordered) {m : Option KeyMatch}
    (hn : Narrow tr) (hvalid : Valid t first tr) (h : Step t tr m tr') : Narrow tr' := by
  cases h with
  -- No value that waits was seen.
  | @skip f v vs hpending hseen =>
    exact absurd hseen ((hn.pending _ _ hpending).2.1 v (List.mem_cons_self ..))
  | @report f v vs hpending hnew =>
    obtain ⟨hnodup, hfresh, hahead⟩ := hn.pending _ _ hpending
    obtain ⟨hv, hnodup⟩ := List.nodup_cons.1 hnodup
    refine ⟨hn.plain, hn.edits, hn.stack, fun f' hf' k hk => ?_, fun f' vs' heq => ?_⟩
    · rcases List.mem_cons.1 hk with rfl | hk
      · exact hahead f' hf'
      · exact hn.seen f' hf' k hk
    · -- The value reported is seen from now on, and the others are different ones.
      obtain ⟨rfl, rfl⟩ := Prod.mk.inj (Option.some.inj heq)
      refine ⟨hnodup, fun w hwm hmem => ?_, hahead⟩
      rcases List.mem_cons.1 hmem with heq | hmem
      · obtain rfl : w = v := by simpa using heq
        exact hv hwm
      · exact hfresh w (List.mem_cons_of_mem _ hwm) hmem
  | @visit f rest hidle hstack =>
    have hlen := hn.stack
    rw [hstack] at hlen
    obtain rfl : rest = [] := List.eq_nil_of_length_eq_zero (by simpa using hlen)
    have hmem : f ∈ tr.stack := by simp [hstack]
    obtain ⟨-, hcomes⟩ := hvalid.stack f hmem
    -- The only successor ends one character further than the frame that is reported now.
    have hnext {f' : Frame} (hf' : f' ∈ t.successors tr.input tr.maxEdits f ++ []) :
        f.pos < f'.pos := by
      rw [List.append_nil, hn.edits] at hf'
      have := ((mem_successors_iff.1 hf').goes_on).1
      omega
    refine ⟨hn.plain, hn.edits, ?_, fun f' hf' k hk => ?_, fun f₀ vs heq => ?_⟩
    · simp only [List.append_nil, hn.edits]
      exact length_successors_le_one hn.plain f
    · -- Values that were seen belong to matches that end before the next frame.
      exact (hn.seen f hmem k hk).trans (hnext hf')
    · dsimp only at heq
      split at heq
      · exact absurd heq (by simp)
      · obtain ⟨rfl, rfl⟩ := Prod.mk.inj (Option.some.inj heq)
        refine ⟨hcomes.nodup_values hw hordered, fun v hv hseen => ?_, fun f' hf' => hnext hf'⟩
        exact absurd (hn.seen f hmem _ hseen) (Nat.lt_irrefl _)
  | begin =>
    exact ⟨hn.plain, hn.edits, Nat.le_refl _, fun _ _ _ hk => absurd hk List.not_mem_nil,
      fun _ _ heq => absurd heq (by simp)⟩

/-- A bound for the steps of a narrow traversal that report nothing. -/
def work (t : Transducer α) (tr : Traversal) : Nat :=
  (tr.stack.map fun f => min f.node.height (tr.input.length - f.pos) + 1).sum +
    tr.startsLeft * (min t.root.height tr.input.length + 2)

/-- Every silent step of a narrow traversal lowers its `work`. -/
theorem Narrow.work_lt (hn : Narrow tr) (h : Step t tr none tr') : work t tr' < work t tr := by
  cases h with
  | @skip f v vs hpending hseen =>
    exact absurd hseen ((hn.pending _ _ hpending).2.1 v (List.mem_cons_self ..))
  | @visit f rest hidle hstack =>
    have hlen := hn.stack
    rw [hstack] at hlen
    obtain rfl : rest = [] := List.eq_nil_of_length_eq_zero (by simpa using hlen)
    have hone := length_successors_le_one (t := t) hn.plain f
    simp only [work, startsLeft, hstack, List.append_nil, hn.edits, List.map_cons, List.map_nil,
      List.sum_cons, List.sum_nil]
    apply Nat.add_lt_add_right
    rcases hs : t.successors tr.input 0 f with _ | ⟨f', _ | _⟩
    · simp
    · -- The one successor is further on in the text and lower in the trie.
      have hread : Reads t tr.input 0 f f' := mem_successors_iff.1 (by simp [hs])
      obtain ⟨hpos, hlength, hheight⟩ := hread.goes_on
      simp only [List.map_cons, List.map_nil, List.sum_cons, List.sum_nil]
      omega
    · simp [hs] at hone
  | begin hidle hstack hbegin =>
    -- One start fewer is left, and its root costs no more than the start did.
    simp only [mayBegin, Bool.and_eq_true, decide_eq_true_eq] at hbegin
    have hleft : tr.startsLeft =
        min tr.startLimit (tr.input.length + 1) - (tr.nextStart + 1) + 1 := by
      unfold startsLeft
      omega
    have hwork : work t tr = (min tr.startLimit (tr.input.length + 1) - (tr.nextStart + 1) + 1) *
        (min t.root.height tr.input.length + 2) := by
      simp [work, hstack, hleft]
    rw [hwork, Nat.add_mul, Nat.one_mul]
    simp only [work, startsLeft, List.map_cons, List.map_nil, List.sum_cons, List.sum_nil,
      Frame.root]
    omega

theorem work_report {m : KeyMatch} (h : Step t tr (some m) tr') : work t tr' = work t tr := by
  cases h with
  | report => rfl

end Traversal

namespace Transducer

open Traversal (Valid Narrow work)

variable {α : Type u} {t : Transducer α} {tr : Traversal} {entries : List (List Char × α)}
  {input : List Char} {first pos : Nat}

/-- A narrow traversal with little work reports a match or comes to its end. -/
theorem next_of_work_lt (hw : t.WellNumbered) (hordered : t.root.Ordered) {limit : Nat}
    (hn : Narrow tr) (hvalid : Valid t first tr) (hwork : work t tr < limit) :
    (∃ m tr', t.next limit tr = (some m, tr') ∧ Narrow tr' ∧ Valid t first tr' ∧
        work t tr' ≤ work t tr) ∨
      ∃ tr', t.next limit tr = (none, tr') ∧ tr'.isOver = true := by
  induction limit generalizing tr with
  | zero => exact absurd hwork (Nat.not_lt_zero _)
  | succ limit ih =>
    rcases Traversal.next_succ_cases t limit tr with
      ⟨m, tr', hstep, heq⟩ | ⟨tr', hstep, heq⟩ | ⟨-, tr', hover, heq⟩ <;> rw [heq]
    · exact .inl ⟨m, tr', rfl, hn.step hw hordered hvalid hstep, hvalid.step hstep,
        (Traversal.work_report hstep).le⟩
    · have hlt := hn.work_lt hstep
      rcases ih (hn.step hw hordered hvalid hstep) (hvalid.step hstep) (by omega) with
        ⟨m, tr₁, hnext, hn₁, hvalid₁, hle⟩ | hover
      · exact .inl ⟨m, tr₁, hnext, hn₁, hvalid₁, by omega⟩
      · exact .inr hover
    · exact .inr ⟨tr', rfl, hover⟩

/-- A narrow traversal with little work is not given up. -/
theorem completes_of_work_lt (hw : t.WellNumbered) (hordered : t.root.Ordered) (hn : Narrow tr)
    (hvalid : Valid t first tr) (hwork : work t tr < stepLimit) : t.completes tr = true := by
  suffices hall : ∀ count, t.completesWithin count tr = true from hall _
  intro count
  induction count generalizing tr with
  | zero => rfl
  | succ count ih =>
    rw [completesWithin]
    rcases next_of_work_lt hw hordered hn hvalid hwork with
      ⟨m, tr', heq, hn', hvalid', hle⟩ | ⟨tr', heq, hover⟩ <;> rw [heq]
    · exact ih hn' hvalid' (by omega)
    · exact hover

/-- A traversal that is not begun yet is narrow, if it makes no edits and meets no wildcard. -/
theorem IsStart.narrow (hstart : IsStart tr) (hplain : wildcard ∉ tr.input)
    (hedits : tr.maxEdits = 0) : Narrow tr where
  plain := hplain
  edits := hedits
  stack := by simp [hstart.stack]
  seen := by simp [hstart.stack]
  pending := by simp [hstart.pending]

/-- The work of a traversal that is not begun yet. -/
theorem IsStart.work_eq (hstart : IsStart tr) :
    work t tr = tr.startsLeft * (min t.root.height tr.input.length + 2) := by
  simp [work, hstart.stack]

/-- No search for a match is given up in a text without wildcards that is short for its keys. -/
theorem completes_of_short (hw : t.WellNumbered) (hordered : t.root.Ordered) {longest : Nat}
    (hheight : t.root.height ≤ longest) (hstart : IsStart tr) (hplain : wildcard ∉ tr.input)
    (hedits : tr.maxEdits = 0) (hleft : tr.startsLeft ≤ max tr.input.length 1)
    (hshort : tr.input.length * (longest + 2) < stepLimit) : t.completes tr = true := by
  refine completes_of_work_lt hw hordered (hstart.narrow hplain hedits) hstart.valid ?_
  rw [hstart.work_eq]
  rcases Nat.eq_zero_or_pos tr.input.length with hnil | hpos
  · -- In an empty text a match can begin only at the end.
    rw [hnil] at hleft ⊢
    calc tr.startsLeft * (min t.root.height 0 + 2) ≤ 1 * 2 := Nat.mul_le_mul hleft (by omega)
      _ < stepLimit := by decide
  · calc tr.startsLeft * (min t.root.height tr.input.length + 2)
        ≤ tr.input.length * (longest + 2) := Nat.mul_le_mul (by omega) (by omega)
      _ < stepLimit := hshort

/-- At one place a match is searched for in a text without wildcards until one of the text and the
keys comes to its end. -/
theorem completes_anchored_of_short (hw : t.WellNumbered) (hordered : t.root.Ordered)
    (hplain : wildcard ∉ input) (hshort : min t.root.height input.length + 2 < stepLimit) :
    t.completes (.anchored pos input) = true := by
  have hstart := isStart_anchored pos input
  refine completes_of_work_lt hw hordered (hstart.narrow hplain rfl) hstart.valid ?_
  have hleft : (Traversal.anchored pos input).startsLeft ≤ 1 := by
    simp only [Traversal.startsLeft, Traversal.anchored]
    omega
  rw [hstart.work_eq]
  calc (Traversal.anchored pos input).startsLeft * (min t.root.height input.length + 2)
      ≤ 1 * (min t.root.height input.length + 2) := Nat.mul_le_mul_right _ hleft
    _ < stepLimit := by rwa [Nat.one_mul]

/-- **Look-ups without edits.**  The matches of `lookup` without edits are the places where the text
has a key, in the sense of `KeyAt`, each with every value of the key once. The values that
`valuesAt` finds at a place are those of the keys that the text has there, each once. No search for
a match is given up if the text has no `wildcard` and is short for its keys. -/
theorem exact_lookup {emptyKeys : Bool} (h : ofList emptyKeys entries = .ok t)
    (input : List Char) :
    (t.completes (.search 0 0 input) = true →
      ((t.lookup input 0).map KeyMatch.place).Nodup ∧
        ∀ first stop v, (first, stop, v) ∈ (t.lookup input 0).map KeyMatch.place ↔
          first < input.length ∧ ∃ key x, entries[v]? = some (key, x) ∧ t.values[v]? = some x ∧
            stop = first + key.length ∧ KeyAt key (input.drop first)) ∧
      (∀ pos ≤ input.length, t.completes (.anchored pos input) = true →
        (t.valuesAt input pos).Perm
          ((entries.filter fun e => KeyAt e.1 (input.drop pos)).map (·.2))) ∧
      (∀ pos > input.length, t.valuesAt input pos = []) ∧
      (wildcard ∉ input → ∀ longest, (∀ e ∈ entries, e.1.length ≤ longest) →
        input.length * (longest + 2) < stepLimit →
          t.completes (.search 0 0 input) = true ∧
            ∀ pos, t.completes (.anchored pos input) = true) := by
  have hs := stores_ofList h
  have hw := wellNumbered_ofList h
  have hsearch := isStart_search 0 0 input
  refine ⟨fun hcompletes => ⟨hs.nodup_places hw hsearch rfl, fun first stop v => ?_⟩,
    fun pos hpos hcompletes => hs.valuesAt_perm hw hpos hcompletes, fun pos hpos => ?_,
    fun hplain longest hlongest hshort => ⟨?_, fun pos => ?_⟩⟩
  · have hplaces := hs.mem_places_iff hw hsearch rfl hcompletes first stop v
    refine hplaces.trans ⟨?_, ?_⟩
    · rintro ⟨⟨-, hfirst, -⟩, key, x, hentry, hstop, hkey⟩
      refine ⟨hfirst, key, x, hentry, ?_, hstop, hkey⟩
      rw [hs.getElem?_values, hentry]
      rfl
    · rintro ⟨hfirst, key, x, hentry, -, hstop, hkey⟩
      exact ⟨⟨Nat.zero_le _, hfirst, hfirst.le⟩, key, x, hentry, hstop, hkey⟩
  · -- No match begins behind the end of the text.
    have hnone : t.matchesOf (.anchored pos input) = [] := by
      refine List.eq_nil_iff_forall_not_mem.2 fun m hm => ?_
      obtain ⟨hfirst, -, hlength⟩ :=
        start_mem_range_of_mem_matchesOf (isStart_anchored pos input) hm
      exact absurd (hpos.trans_le hfirst) (Nat.not_lt.2 hlength)
    simp [valuesAt, hnone]
  · -- There is one start for each character, so the work stays below the limit.
    have hleft : (Traversal.search 0 0 input).startsLeft ≤ max input.length 1 := by
      simp only [Traversal.startsLeft, Traversal.search]
      omega
    exact completes_of_short hw hs.ordered (height_ofList_le h hlongest) hsearch hplain rfl hleft
      hshort
  · -- There is a single start.
    have hleft : (Traversal.anchored pos input).startsLeft ≤ max input.length 1 := by
      simp only [Traversal.startsLeft, Traversal.anchored]
      omega
    exact completes_of_short hw hs.ordered (height_ofList_le h hlongest)
      (isStart_anchored pos input) hplain rfl hleft hshort

/-- Two values under one key, a key within another, and the empty key. -/
def sampleKeys : List (List Char × Nat) :=
  [("ab".toList, 0), ("b".toList, 1), ([], 2), ("ab".toList, 3)]

theorem exact_lookup_sampleKeys :
    ∃ t, ofList true sampleKeys = .ok t ∧
      ((t.lookup "ab•b".toList 0).map KeyMatch.place).Nodup ∧
      (1, 2, 1) ∈ (t.lookup "ab•b".toList 0).map KeyMatch.place ∧
      (t.valuesAt "ab•b".toList 4).Perm [2] ∧ t.valuesAt "ab•b".toList 5 = [] ∧
      t.completes (.search 0 0 "abab".toList) = true := by
  have hfound : ((ofList true sampleKeys).toOption.any fun t =>
      t.completes (.search 0 0 "ab•b".toList) && t.completes (.anchored 4 "ab•b".toList)) =
        true := by
    decide +kernel
  obtain ⟨t, ht, hcompletes⟩ := exists_eq_ok_of_any hfound
  obtain ⟨hlookup, hanchored⟩ := Bool.and_eq_true_iff.1 hcompletes
  obtain ⟨hmatches, hvalues, hbehind, -⟩ := exact_lookup ht "ab•b".toList
  obtain ⟨-, -, -, hshort⟩ := exact_lookup ht "abab".toList
  obtain ⟨hnodup, hmem⟩ := hmatches hlookup
  refine ⟨t, ht, hnodup, (hmem 1 2 1).2 ?_, ?_, hbehind 5 (by decide), ?_⟩
  · have hvalue : t.values[1]? = some 1 := by
      rw [(stores_ofList ht).getElem?_values]
      rfl
    exact ⟨by decide, _, _, rfl, hvalue, rfl, by decide⟩
  · exact hvalues 4 (by decide) hanchored
  · exact (hshort (by decide) 2 (by decide) (by decide)).1

end Transducer

end Morphology
