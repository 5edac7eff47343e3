import Morphology.Proofs.EditDistance
import Morphology.Proofs.Transducer.Building
import Morphology.Proofs.Transducer.Traversal

/-!
# What corrected matches say

Whatever edits a match makes, its segment is the key that it is found under, perhaps with wildcards,
and so many edits make the text into the key.  No match is reported twice.

## Main definitions

* `KeyMatch.Corrects` — a match says truly how a text is made into a key
* `Transducer.Spells` — a frame says truly how a text is made into the symbols on its path
* `Traversal.IsPast` — a match that is not reported any more

## Main statements

* `Transducer.Spells.reads` — every reading keeps to the truth
* `Transducer.Stores.corrects_of_mem_matchesOf` — every match says the truth
* `Transducer.nodup_matchesOf` — no match is reported twice
* `Transducer.corrects_lookup` — the matches of a text, with the keys of a draft
-/

namespace Morphology

universe u

/-! ## Matches -/

namespace KeyMatch

/-- A match says truly how a part of a text is made into a key.  Without edits its segment is that
part. -/
structure Corrects (input : List Char) (maxEdits : Nat) (m : KeyMatch) (key : List Char) :
    Prop where
  start_le : m.start ≤ m.stop
  stop_le : m.stop ≤ input.length
  edits_le : m.edits.length ≤ maxEdits
  segment : List.Forall₂ (fun c d => c = d ∨ c = wildcard) m.segment key
  marks : ∀ e ∈ m.edits, m.start ≤ e.pos ∧ e.pos ≤ m.start + m.segment.length
  plain : m.edits = [] → m.segment = input.extract m.start m.stop
  distance : wildcard ∉ input →
    editDistance (input.extract m.start m.stop) key ≤ m.edits.length

/-- Everything about a match but its edits. -/
def identity (m : KeyMatch) : Nat × Nat × Nat × List Char :=
  (m.start, m.stop, m.value, m.segment)

end KeyMatch

namespace Transducer

variable {α : Type u} {t : Transducer α} {input : List Char} {maxEdits : Nat} {f f' : Frame}
  {symbols more : List Nat}

/-! ## Frames -/

private theorem extract_append_extract {α : Type u} (xs : List α) {i j k : Nat} (hij : i ≤ j)
    (hjk : j ≤ k) : xs.extract i j ++ xs.extract j k = xs.extract i k := by
  obtain ⟨m, rfl⟩ := Nat.exists_eq_add_of_le hij
  obtain ⟨n, rfl⟩ := Nat.exists_eq_add_of_le hjk
  have hfirst : i + m - i = m := by omega
  have hsecond : i + m + n - (i + m) = n := by omega
  have hboth : i + m + n - i = m + n := by omega
  rw [List.extract_eq_take_drop, List.extract_eq_take_drop, List.extract_eq_take_drop, hfirst,
    hsecond, hboth, List.take_add, List.drop_drop]

private theorem extract_one {α : Type u} {xs : List α} {i : Nat} {x : α} (h : xs[i]? = some x) :
    xs.extract i (i + 1) = [x] := by
  obtain ⟨hlt, rfl⟩ := List.getElem?_eq_some_iff.1 h
  simp [List.extract_eq_take_drop, List.take_one_drop_eq_of_lt_length hlt]

/-- The symbols of a key fall into those of its parts. -/
private theorem append_of_mapM (symbols : List Nat) {key : List Char} {number? : Char → Option Nat}
    (h : key.mapM number? = some (symbols ++ more)) :
    ∃ front back, key = front ++ back ∧ front.mapM number? = some symbols ∧
      back.mapM number? = some more := by
  induction symbols generalizing key with
  | nil => exact ⟨[], key, rfl, rfl, h⟩
  | cons s symbols ih =>
    cases key with
    | nil => simp at h
    | cons c key =>
      simp only [List.mapM_cons, Option.bind_eq_bind, Option.bind_eq_some_iff] at h
      obtain ⟨n, hn, rest, hrest, heq⟩ := h
      obtain ⟨rfl, rfl⟩ := List.cons.inj (Option.some.inj heq)
      obtain ⟨front, back, rfl, hfront, hback⟩ := ih hrest
      exact ⟨c :: front, back, rfl, by simp [List.mapM_cons, hn, hfront], hback⟩

/-- A character stands for a symbol. -/
def StandsFor (t : Transducer α) (c : Char) (s : Nat) : Prop :=
  c = wildcard ∨ t.alphabet.number? c = some s

/-- A frame says truly how a part of the text is made into the symbols on the path to its node. -/
structure Spells (t : Transducer α) (input : List Char) (maxEdits : Nat) (f : Frame)
    (symbols : List Nat) : Prop where
  start_le : f.start ≤ f.pos
  pos_le : f.pos ≤ input.length
  edits_le : f.edits.length ≤ maxEdits
  ordered : f.node.Ordered
  path : ∀ rest, t.root.find (symbols ++ rest) = f.node.find rest
  segment : List.Forall₂ (StandsFor t) f.segment symbols
  marks : ∀ e ∈ f.edits, f.start ≤ e.pos ∧ e.pos ≤ f.start + f.segment.length
  plain : f.edits = [] → f.segment = input.extract f.start f.pos
  script : wildcard ∉ input → ∀ key : List Char, key.mapM t.alphabet.number? = some symbols →
    Edits (input.extract f.start f.pos) key f.edits.length

namespace Spells

theorem root (hordered : t.root.Ordered) {start : Nat} (hstart : start ≤ input.length) :
    Spells t input maxEdits (.root t.root start) [] where
  start_le := Nat.le_refl _
  pos_le := hstart
  edits_le := Nat.zero_le _
  ordered := hordered
  path := fun _ => rfl
  segment := .nil
  marks := by simp [Frame.root]
  plain := by simp [Frame.root, List.extract_eq_take_drop]
  script := by
    intro _ key hkey
    obtain rfl : key = [] :=
      List.eq_nil_of_length_eq_zero (Alphabet.length_of_mapM_number? hkey).symm
    simpa [Frame.root, List.extract_eq_take_drop] using Edits.nil

/-- What is read further and emitted for it, is put behind what was read before. -/
theorem advance (h : Spells t input maxEdits f symbols) (more : List Nat) {node : Trie}
    {consumed : Nat} {emitted : List Char} {kind : Option EditKind}
    (hedits : kind.isSome = true → f.edits.length < maxEdits)
    (hpos : f.pos + consumed ≤ input.length) (hordered : node.Ordered)
    (hpath : ∀ rest, f.node.find (more ++ rest) = node.find rest)
    (hsegment : List.Forall₂ (StandsFor t) emitted more)
    (hplain : kind = none → emitted = input.extract f.pos (f.pos + consumed))
    (hscript : wildcard ∉ input → ∀ key : List Char, key.mapM t.alphabet.number? = some more →
      Edits (input.extract f.pos (f.pos + consumed)) key kind.toList.length) :
    Spells t input maxEdits (f.advance node consumed emitted kind) (symbols ++ more) where
  start_le := Nat.le_add_right_of_le h.start_le
  pos_le := hpos
  -- A step that is no edit makes none more.
  edits_le := by
    cases kind with
    | none => exact h.edits_le
    | some k =>
      simp only [Frame.advance, List.length_append, List.length_singleton]
      exact hedits rfl
  ordered := hordered
  path := by
    intro rest
    rw [List.append_assoc, h.path, hpath]
    rfl
  segment := List.rel_append h.segment hsegment
  marks := by
    intro e he
    -- The edits made before stay within the segment, which only grows.
    have hold (he : e ∈ f.edits) :
        f.start ≤ e.pos ∧ e.pos ≤ f.start + (f.segment ++ emitted).length := by
      have := h.marks e he
      rw [List.length_append]
      omega
    cases kind with
    | none => exact hold he
    | some k =>
      rcases List.mem_append.1 he with he | he
      · exact hold he
      · -- The edit made now is marked at the end of the segment so far.
        rw [List.mem_singleton.1 he]
        simp only [Frame.advance, List.length_append]
        omega
  plain := by
    intro hnil
    cases kind with
    | none =>
      simp only [Frame.advance]
      rw [h.plain hnil, hplain rfl,
        extract_append_extract input h.start_le (Nat.le_add_right f.pos consumed)]
    | some k => exact absurd hnil (by simp [Frame.advance])
  script := by
    intro hinput key hkey
    -- A key of all symbols is cut where the symbols of this step begin.
    obtain ⟨front, back, rfl, hfront, hback⟩ := append_of_mapM symbols hkey
    have hedits' := (h.script hinput front hfront).append (hscript hinput back hback)
    rw [extract_append_extract input h.start_le (Nat.le_add_right f.pos consumed)] at hedits'
    cases kind with
    | none => exact hedits'
    | some k => simpa [Frame.advance] using hedits'

/-- Every step of a frame that `Spells` its symbols leads to one that does. -/
theorem reads (hw : t.WellNumbered) (h : Spells t input maxEdits f symbols)
    (hread : Reads t input maxEdits f f') : ∃ more, Spells t input maxEdits f' more := by
  have hlt {n : Nat} {c : Char} (hc : input[n]? = some c) : n < input.length :=
    (List.getElem?_eq_some_iff.1 hc).1
  have hfind {node child : Trie} {s : Nat} (hchild : node.child? s = some child) (rest : List Nat) :
      node.find (s :: rest) = child.find rest := by
    simp [Trie.find, hchild]
  -- One symbol has one character.
  have hone {key : List Char} {s : Nat} (hkey : key.mapM t.alphabet.number? = some [s]) :
      ∃ c, key = [c] ∧ t.alphabet.number? c = some s := by
    obtain ⟨c, rfl⟩ := List.length_eq_one_iff.1 (Alphabet.length_of_mapM_number? hkey).symm
    exact ⟨c, rfl, by simpa [Option.bind_eq_some_iff] using hkey⟩
  cases hread with
  | @exact c s node hc hplain hs hnode =>
    refine ⟨_, h.advance [s] (by simp) (hlt hc)
      (h.ordered.child (Trie.mem_arcs_of_child? hnode)) (hfind hnode)
      (.cons (.inr hs) .nil) (fun _ => (extract_one hc).symm) fun _ key hkey => ?_⟩
    obtain ⟨c', rfl, hc'⟩ := hone hkey
    obtain rfl : c = c' := hw.chars.injective hs hc'
    rw [extract_one hc]
    exact .keep .nil
  -- A wildcard in the text says nothing about the distance.
  | @wild s node hc hnode =>
    refine ⟨_, h.advance [s] (by simp) (hlt hc) (h.ordered.child hnode)
      (hfind (h.ordered.child?_of_mem hnode)) (.cons (.inl rfl) .nil)
      (fun _ => (extract_one hc).symm) fun hinput _ _ => ?_⟩
    exact absurd (List.mem_of_getElem? hc) hinput
  | @substitute c s node hedits hc _ hnode _ =>
    refine ⟨_, h.advance [s] (fun _ => hedits) (hlt hc) (h.ordered.child hnode)
      (hfind (h.ordered.child?_of_mem hnode)) (.cons (.inl rfl) .nil) (by simp)
      fun _ key hkey => ?_⟩
    obtain ⟨c', rfl, -⟩ := hone hkey
    rw [extract_one hc]
    exact .substitute .nil
  -- A deletion adds nothing to the key.
  | delete hedits _ hpos _ _ =>
    refine ⟨_, h.advance [] (fun _ => hedits) hpos h.ordered (fun _ => rfl) .nil (by simp)
      fun _ key hkey => ?_⟩
    obtain rfl : key = [] :=
      List.eq_nil_of_length_eq_zero (Alphabet.length_of_mapM_number? hkey).symm
    rw [extract_one (List.getElem?_eq_getElem hpos)]
    exact .delete .nil
  | @insert s node hedits _ hnode =>
    refine ⟨_, h.advance [s] (fun _ => hedits) h.pos_le (h.ordered.child hnode)
      (hfind (h.ordered.child?_of_mem hnode)) (.cons (.inl rfl) .nil) (by simp)
      fun _ key hkey => ?_⟩
    obtain ⟨c', rfl, -⟩ := hone hkey
    simpa [List.extract_eq_take_drop] using Edits.insert .nil
  | @transpose c d first second mid node hedits hc hd hfirst hsecond hmid hnode _ =>
    have hmid' := h.ordered.child (Trie.mem_arcs_of_child? hmid)
    refine ⟨_, h.advance [first, second] (fun _ => hedits) (hlt hd)
      (hmid'.child (Trie.mem_arcs_of_child? hnode)) (fun rest => ?_)
      (.cons (.inr hfirst) (.cons (.inr hsecond) .nil)) (by simp) fun _ key hkey => ?_⟩
    · exact (hfind hmid (second :: rest)).trans (hfind hnode rest)
    · -- The two characters swapped stand for the two symbols in their order.
      obtain ⟨front, back, rfl, hfront, hback⟩ := append_of_mapM [first] hkey
      obtain ⟨d', rfl, hd'⟩ := hone hfront
      obtain ⟨c', rfl, hc'⟩ := hone hback
      obtain rfl : d = d' := hw.chars.injective hfirst hd'
      obtain rfl : c = c' := hw.chars.injective hsecond hc'
      rw [← extract_append_extract input (Nat.le_add_right f.pos 1) (Nat.le_succ (f.pos + 1)),
        extract_one hc, extract_one hd]
      exact .swap .nil

end Spells

/-! ## What is found -/

variable {tr : Traversal} {entries : List (List Char × α)}

theorem Visits.spells (hw : t.WellNumbered) (h : Visits t input maxEdits f f')
    (hf : ∃ symbols, Spells t input maxEdits f symbols) :
    ∃ symbols, Spells t input maxEdits f' symbols :=
  h.keeps (P := fun f => ∃ symbols, Spells t input maxEdits f symbols)
    (fun _ _ ⟨_, hspells⟩ hread => hspells.reads hw hread) hf

/-- Characters that stand for the symbols of a key, in the sense of `StandsFor`, are those of the
key, or wildcards. -/
private theorem forall₂_of_standsFor (hw : t.WellNumbered) {segment key : List Char}
    (hsegment : List.Forall₂ (StandsFor t) segment symbols)
    (hkey : key.mapM t.alphabet.number? = some symbols) :
    List.Forall₂ (fun c d => c = d ∨ c = wildcard) segment key := by
  induction hsegment generalizing key with
  | nil =>
    obtain rfl : key = [] :=
      List.eq_nil_of_length_eq_zero (Alphabet.length_of_mapM_number? hkey).symm
    exact .nil
  | @cons c s segment symbols hc _ ih =>
    obtain ⟨front, back, rfl, hfront, hback⟩ := append_of_mapM [s] hkey
    obtain ⟨d, rfl⟩ := List.length_eq_one_iff.1 (Alphabet.length_of_mapM_number? hfront).symm
    have hd : t.alphabet.number? d = some s := by simpa [Option.bind_eq_some_iff] using hfront
    refine .cons ?_ (ih hback)
    rcases hc with rfl | hc
    · exact .inr rfl
    · exact .inl (hw.chars.injective hc hd)

/-- Every match `Corrects` the text to the key of its value. -/
theorem Stores.corrects_of_mem_matchesOf (hs : t.Stores entries) (hw : t.WellNumbered)
    (hstart : IsStart tr) {m : KeyMatch} (hm : m ∈ t.matchesOf tr) :
    ∃ key x, entries[m.value]? = some (key, x) ∧ m.Corrects tr.input tr.maxEdits key := by
  obtain ⟨f, v, hcomes, hv, rfl⟩ := found_of_mem_matchesOf hstart hm
  obtain ⟨symbols, hspells⟩ := hcomes.visits.spells hw ⟨[], .root hs.ordered hcomes.length⟩
  have hmem : v ∈ t.root.find symbols := by
    rw [← List.append_nil symbols, hspells.path]
    exact hv
  obtain ⟨key, x, hentry, hkey⟩ := (hs.find symbols v).1 hmem
  refine ⟨key, x, hentry, ?_⟩
  exact {
    start_le := hspells.start_le
    stop_le := hspells.pos_le
    edits_le := hspells.edits_le
    segment := forall₂_of_standsFor hw hspells.segment hkey
    marks := hspells.marks
    plain := hspells.plain
    distance := fun hinput =>
      editDistance_le_iff.2 ⟨_, Nat.le_refl _, hspells.script hinput key hkey⟩ }

end Transducer

/-! ## Reports -/

namespace Traversal

variable {α : Type u} {t : Transducer α} {tr tr' tr₁ : Traversal} {m m' : KeyMatch}

/-- A match begins before the last start, or is among those seen from it. -/
def IsPast (tr : Traversal) (m : KeyMatch) : Prop :=
  m.start + 1 < tr.nextStart ∨
    m.start + 1 = tr.nextStart ∧ (m.stop, m.value, m.segment) ∈ tr.seen

/-- What is past does not come back. -/
theorem Step.isPast {o : Option KeyMatch} (h : Step t tr o tr') (hpast : tr.IsPast m) :
    tr'.IsPast m := by
  cases h with
  | skip | visit => exact hpast
  | report => exact hpast.imp_right fun hseen => ⟨hseen.1, List.mem_cons_of_mem _ hseen.2⟩
  | begin =>
    left
    show m.start + 1 < tr.nextStart + 1
    rcases hpast with hlt | ⟨heq, -⟩ <;> omega

theorem Silent.isPast (h : Silent t tr tr₁) (hpast : tr.IsPast m) : tr₁.IsPast m := by
  induction h with
  | refl => exact hpast
  | tail _ hstep ih => exact hstep.isPast ih

/-- What is reported is past from then on, and was not before. -/
theorem Step.isPast_iff_of_report {first : Nat} (hvalid : Valid t first tr)
    (h : Step t tr (some m) tr') : tr'.IsPast m ∧ ¬ tr.IsPast m := by
  cases h with
  | @report f v vs hpending hnew =>
    obtain ⟨hstart, -⟩ := hvalid.pending _ _ hpending
    refine ⟨.inr ⟨hstart, List.mem_cons_self ..⟩, ?_⟩
    rintro (hlt | ⟨-, hseen⟩)
    · exact absurd hstart (Nat.ne_of_lt hlt)
    · exact hnew hseen

theorem IsPast.congr (hpast : tr.IsPast m) (heq : m.identity = m'.identity) : tr.IsPast m' := by
  simp only [KeyMatch.identity, Prod.mk.injEq] at heq
  obtain ⟨hstart, hstop, hvalue, hsegment⟩ := heq
  unfold IsPast at hpast ⊢
  rwa [← hstart, ← hstop, ← hvalue, ← hsegment]

end Traversal

namespace Transducer

open Traversal (Valid)

variable {α : Type u} {t : Transducer α} {tr : Traversal}

private theorem nodup_takeMatches {first count : Nat} (hvalid : Valid t first tr) :
    (∀ m ∈ t.takeMatches count tr, ¬ tr.IsPast m) ∧
      ((t.takeMatches count tr).map KeyMatch.identity).Nodup := by
  induction count generalizing tr with
  | zero => simp [takeMatches]
  | succ count ih =>
    obtain ⟨tr₁, hsilent, ⟨m, hnext, hstep⟩ | ⟨hnone, -⟩⟩ :=
      Traversal.exists_silent_next t stepLimit tr
    · obtain ⟨hvalid₁, -⟩ := hvalid.silent hsilent
      obtain ⟨hpast, hnew⟩ := hstep.isPast_iff_of_report hvalid₁
      obtain ⟨hrest, hnodup⟩ := ih (hvalid₁.step hstep)
      have heq : t.next stepLimit tr = (some m, (t.next stepLimit tr).2) := by
        rw [← hnext]
      rw [takeMatches, heq]
      constructor
      · intro m' hm'
        rcases List.mem_cons.1 hm' with rfl | hm'
        · exact fun h => hnew (hsilent.isPast h)
        · exact fun h => hrest m' hm' (hstep.isPast (hsilent.isPast h))
      · -- The first match is past when the others are looked for.
        refine List.nodup_cons.2 ⟨fun hmem => ?_, hnodup⟩
        obtain ⟨m', hm', heq⟩ := List.mem_map.1 hmem
        exact hrest m' hm' (hpast.congr heq.symm)
    · -- Nothing is left to be reported.
      have heq : t.next stepLimit tr = (none, (t.next stepLimit tr).2) := by
        rw [← hnone]
      rw [takeMatches, heq]
      simp

/-- No match is reported twice. -/
theorem nodup_matchesOf (hstart : IsStart tr) :
    ((t.matchesOf tr).map KeyMatch.identity).Nodup :=
  (nodup_takeMatches hstart.valid).2

/-- **Matches are true.**  Every match that `lookup` returns `Corrects` a part of the text to a key
of the draft, and none is returned twice (`KeyMatch.identity`). -/
theorem corrects_lookup (emptyKeys : Bool) (entries : List (List Char × α)) (input : List Char)
    (maxEdits : Nat) :
    (∀ m ∈ (ofAccepted emptyKeys entries).lookup input maxEdits, ∃ key x,
      ((Draft.start emptyKeys).accepted entries)[m.value]? = some (key, x) ∧
        (ofAccepted emptyKeys entries).values[m.value]? = some x ∧
          m.Corrects input maxEdits key) ∧
      (((ofAccepted emptyKeys entries).lookup input maxEdits).map KeyMatch.identity).Nodup := by
  have hs := stores_ofAccepted emptyKeys entries
  have hstart := isStart_search maxEdits 0 input
  refine ⟨fun m hm => ?_, nodup_matchesOf hstart⟩
  obtain ⟨key, x, hentry, hcorrects⟩ :=
    hs.corrects_of_mem_matchesOf (wellNumbered_ofAccepted emptyKeys entries) hstart hm
  refine ⟨key, x, hentry, ?_, hcorrects⟩
  rw [hs.getElem?_values, hentry]
  rfl

end Transducer

end Morphology
