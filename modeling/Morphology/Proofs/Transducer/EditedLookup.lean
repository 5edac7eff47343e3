import Mathlib.Data.List.Chain
import Mathlib.Data.List.Infix
import Morphology.Proofs.Alignment
import Morphology.Proofs.Outcome
import Morphology.Proofs.Transducer.Corrections

/-!
# Looking keys up with edits

A traversal follows every alignment of a part of the text with a key that does not undo its own
edits: it makes no deletion if the last edit before was an insertion, and the other way round,
however far apart the two are in the text.  Deletions at the ends of the part are not made, as the
match may as well begin later or stop earlier.

## Main definitions

* `Transducer.Leads` — a node leads to a value by a key
* `Transducer.Follows` — a frame may go on along some steps of an alignment

## Main statements

* `Transducer.Follows.step` — a step is followed by a reading
* `Transducer.Follows.visits` — an alignment is followed to its end
* `Transducer.edited_lookup` — the keys found with edits
* `Transducer.not_foundWithin_of_distance` — a deletion behind an insertion is not tried
-/

namespace Morphology

universe u

namespace Frame

theorem length_edits_advance (f : Frame) (node : Trie) (consumed : Nat) (emitted : List Char)
    (kind : Option EditKind) :
    (f.advance node consumed emitted kind).edits.length = f.edits.length + kind.toList.length := by
  cases kind with
  | none => rfl
  | some kind => simp [advance]

theorem lastEdit?_advance (f : Frame) (node : Trie) (consumed : Nat) (emitted : List Char)
    (kind : EditKind) : (f.advance node consumed emitted (some kind)).lastEdit? = some kind := by
  simp [lastEdit?, advance]

end Frame

namespace Transducer

open Traversal (Comes Reports)

variable {α : Type u} {t : Transducer α} {entries : List (List Char × α)} {input key : List Char}
  {maxEdits n : Nat} {f : Frame} {node : Trie} {s : AlignStep} {steps : List AlignStep}

/-! ## Down the trie -/

/-- A node leads to a value by a key. -/
def Leads (t : Transducer α) (node : Trie) (key : List Char) (n : Nat) : Prop :=
  ∃ symbols, key.mapM t.alphabet.number? = some symbols ∧ n ∈ node.find symbols

theorem leads_nil_iff : t.Leads node [] n ↔ n ∈ node.values := by
  simp [Leads, Trie.find]

/-- The first character of a key leads to a child. -/
theorem Leads.child {c : Char} (h : t.Leads node (c :: key) n) :
    ∃ s child, t.alphabet.number? c = some s ∧ node.child? s = some child ∧
      t.Leads child key n := by
  obtain ⟨symbols, hsymbols, hn⟩ := h
  simp only [List.mapM_cons, Option.bind_eq_bind, Option.bind_eq_some_iff] at hsymbols
  obtain ⟨s, hs, rest, hrest, heq⟩ := hsymbols
  obtain rfl : s :: rest = symbols := Option.some.inj heq
  cases hchild : node.child? s with
  | none => simp [Trie.find, hchild] at hn
  | some child =>
    rw [Trie.find, hchild] at hn
    exact ⟨s, child, hs, hchild, rest, hrest, hn⟩

theorem Leads.arcs_ne_nil (h : t.Leads node key n) (hkey : key ≠ []) : node.arcs ≠ [] := by
  obtain ⟨c, key, rfl⟩ := List.exists_cons_of_ne_nil hkey
  obtain ⟨s, child, -, hchild, -⟩ := h.child
  exact List.ne_nil_of_mem (Trie.mem_arcs_of_child? hchild)

/-- The root leads to the values of the keys. -/
theorem Stores.leads (hs : t.Stores entries) {x : α} (hentry : entries[n]? = some (key, x)) :
    t.Leads t.root key n := by
  obtain ⟨symbols, hsymbols⟩ := hs.known key x (List.mem_of_getElem? hentry)
  exact ⟨symbols, hsymbols, (hs.find symbols n).2 ⟨key, x, hentry, hsymbols⟩⟩

/-! ## Along an alignment -/

/-- A frame may go on along some steps: the text has them, there are enough edits, none undoes the
last one, and there are no deletions at the ends. -/
structure Follows (input : List Char) (maxEdits : Nat) (f : Frame) (steps : List AlignStep) :
    Prop where
  text : steps.flatMap AlignStep.source <+: input.drop f.pos
  proper : ∀ s ∈ steps, s.Proper
  edits : f.edits.length + (editKinds steps).length ≤ maxEdits
  apart : (f.lastEdit?.toList ++ editKinds steps).IsChain EditKind.Apart
  front : f.segment = [] → ∀ s ∈ steps.head?, s.isDeletion = false
  back : ∀ s ∈ steps.getLast?, s.isDeletion = false

namespace Follows

theorem getElem?_of_source (h : Follows input maxEdits f (s :: steps)) {i : Nat} {c : Char}
    (hc : s.source[i]? = some c) : input[f.pos + i]? = some c := by
  obtain ⟨rest, hrest⟩ := h.text
  have hlt := (List.getElem?_eq_some_iff.1 hc).1
  rw [← List.getElem?_drop, ← hrest, List.flatMap_cons, List.append_assoc,
    List.getElem?_append_left hlt, hc]

/-- An edit is left for an edit. -/
theorem edits_lt (h : Follows input maxEdits f (s :: steps)) {kind : EditKind}
    (hkind : s.kind? = some kind) : f.edits.length < maxEdits := by
  have := h.edits
  rw [editKinds_cons, hkind, Option.toList_some, List.singleton_append, List.length_cons] at this
  omega

/-- An edit does not undo the last one. -/
theorem apart_last (h : Follows input maxEdits f (s :: steps)) {kind last : EditKind}
    (hkind : s.kind? = some kind) (hlast : f.lastEdit? = some last) : last.Apart kind := by
  have := h.apart
  rw [editKinds_cons, hkind, hlast] at this
  exact (List.isChain_cons_cons.1 this).1

/-- Behind a step the rest of the alignment `Follows` in the same way. -/
theorem advance (h : Follows input maxEdits f (s :: steps)) (node : Trie) {emitted : List Char}
    (hemitted : emitted = [] → s.isDeletion = true) :
    Follows input maxEdits (f.advance node s.source.length emitted s.kind?) steps where
  text := by
    have := List.IsPrefix.drop h.text s.source.length
    rwa [List.flatMap_cons, List.drop_left, List.drop_drop] at this
  proper := fun s' hs' => h.proper s' (List.mem_cons_of_mem _ hs')
  edits := by
    have := h.edits
    rw [editKinds_cons, List.length_append] at this
    rw [Frame.length_edits_advance]
    omega
  apart := by
    have := h.apart
    rw [editKinds_cons] at this
    -- A step that is no edit leaves the last edit as it was.
    cases hkind : s.kind? with
    | none =>
      rw [hkind] at this
      exact this
    | some kind =>
      rw [hkind] at this
      rw [Frame.lastEdit?_advance]
      exact this.right_of_append
  front := by
    intro hsegment
    obtain ⟨hold, hnew⟩ := List.append_eq_nil_iff.1 hsegment
    -- Nothing is emitted for deletions only, and these are not in front.
    have hfront := h.front hold s rfl
    exact absurd ((hemitted hnew).symm.trans hfront) (by decide)
  back := by
    -- The last step of the rest is the last of all.
    intro s' hs'
    refine h.back s' ?_
    rw [List.getLast?_cons_of_ne_nil]
    · exact hs'
    · rintro rfl
      exact absurd hs' (by simp)

/-- Behind steps that end in no deletion there is more of the key. -/
theorem target_ne_nil (h : Follows input maxEdits f steps) (hne : steps ≠ []) :
    steps.flatMap AlignStep.target ≠ [] := by
  intro hnil
  have hlast := List.getLast_mem hne
  have htarget := AlignStep.target_eq_nil_iff.1 (List.flatMap_eq_nil_iff.1 hnil _ hlast)
  have hback := h.back _ (List.getLast?_eq_some_getLast hne)
  exact absurd (htarget.symm.trans hback) (by decide)

/-- A step that a frame `Follows` is read by one of the frames behind it. -/
theorem step (hw : t.WellNumbered) (hplain : wildcard ∉ input)
    (h : Follows input maxEdits f (s :: steps))
    (hleads : t.Leads f.node ((s :: steps).flatMap AlignStep.target) n) :
    ∃ f', Reads t input maxEdits f f' ∧ Follows input maxEdits f' steps ∧
      t.Leads f'.node (steps.flatMap AlignStep.target) n ∧ f'.pos = f.pos + s.source.length := by
  have hchar {i : Nat} {c : Char} (hc : input[i]? = some c) : c ≠ wildcard := by
    rintro rfl
    exact hplain (List.mem_of_getElem? hc)
  have hproper := h.proper s (List.mem_cons_self ..)
  cases s with
  | keep c =>
    obtain ⟨symbol, node, hsymbol, hnode, hrest⟩ := hleads.child
    have hc : input[f.pos]? = some c := h.getElem?_of_source (i := 0) rfl
    exact ⟨_, .exact hc (hchar hc) hsymbol hnode, h.advance node (by simp), hrest, rfl⟩
  | substitute a b =>
    obtain ⟨symbol, node, hsymbol, hnode, hrest⟩ := hleads.child
    have ha : input[f.pos]? = some a := h.getElem?_of_source (i := 0) rfl
    -- Different characters have different symbols.
    have hother : some symbol ≠ t.alphabet.number? a :=
      fun heq => hproper (hw.chars.injective heq.symm hsymbol)
    exact ⟨_, .substitute (h.edits_lt rfl) ha (hchar ha) (Trie.mem_arcs_of_child? hnode) hother,
      h.advance node (by simp), hrest, rfl⟩
  | delete a =>
    have ha : input[f.pos]? = some a := h.getElem?_of_source (i := 0) rfl
    -- In front of the key nothing is deleted, so part of it has been read.
    have hsegment : f.segment ≠ [] :=
      fun hnil => absurd (h.front hnil _ rfl) (by simp [AlignStep.isDeletion])
    have hlast : f.lastEdit? ≠ some .insert := fun hlast => (h.apart_last rfl hlast).2 ⟨rfl, rfl⟩
    -- Deletions do not end an alignment, so the key goes on.
    have hkey := h.target_ne_nil (List.cons_ne_nil _ _)
    exact ⟨_, .delete (h.edits_lt rfl) (hleads.arcs_ne_nil hkey)
        (List.getElem?_eq_some_iff.1 ha).1 hsegment hlast,
      h.advance f.node fun _ => rfl, hleads, rfl⟩
  | insert b =>
    obtain ⟨symbol, node, -, hnode, hrest⟩ := hleads.child
    -- An insertion right behind a deletion would undo it.
    have hlast : f.lastEdit? ≠ some .delete := fun hlast => (h.apart_last rfl hlast).1 ⟨rfl, rfl⟩
    exact ⟨_, .insert (h.edits_lt rfl) hlast (Trie.mem_arcs_of_child? hnode),
      h.advance node (by simp), hrest, rfl⟩
  | transpose a b =>
    obtain ⟨first, mid, hfirst, hmid, hmore⟩ := hleads.child
    obtain ⟨second, node, hsecond, hnode, hrest⟩ := hmore.child
    have ha : input[f.pos]? = some a := h.getElem?_of_source (i := 0) rfl
    have hb : input[f.pos + 1]? = some b := h.getElem?_of_source (i := 1) rfl
    have hne : first ≠ second := by
      rintro rfl
      exact hproper (hw.chars.injective hsecond hfirst)
    exact ⟨_, .transpose (h.edits_lt rfl) ha hb hfirst hsecond hmid hnode hne,
      h.advance node (by simp), hrest, rfl⟩

/-- An alignment that a frame `Follows` is read to its end, where the key has its value. -/
theorem visits (hw : t.WellNumbered) (hplain : wildcard ∉ input)
    (h : Follows input maxEdits f steps)
    (hleads : t.Leads f.node (steps.flatMap AlignStep.target) n) :
    ∃ f', Visits t input maxEdits f f' ∧ n ∈ f'.node.values ∧
      f'.pos = f.pos + (steps.flatMap AlignStep.source).length := by
  induction steps generalizing f with
  | nil => exact ⟨f, .refl, leads_nil_iff.1 hleads, rfl⟩
  | cons s steps ih =>
    obtain ⟨f₁, hread, hrest, hleads₁, hpos₁⟩ := h.step hw hplain hleads
    obtain ⟨f', hvisits, hn, hpos⟩ := ih hrest hleads₁
    refine ⟨f', .head hread hvisits, hn, ?_⟩
    rw [hpos, hpos₁, List.flatMap_cons, List.length_append, Nat.add_assoc]

end Follows

/-! ## Keys found -/

namespace Stores

/-- A key that `Trimmed` steps make of a part of the text is found there by `lookup`. -/
theorem exists_mem_lookup_of_trimmed (hs : t.Stores entries) (hw : t.WellNumbered)
    (hplain : wildcard ∉ input) (hcompletes : t.completes (.search maxEdits 0 input) = true)
    {x : α} (hentry : entries[n]? = some (key, x)) {first stop : Nat}
    (hfirst : first < input.length)
    (hle : first ≤ stop) (hstop : stop ≤ input.length)
    (haligns : Aligns steps (input.extract first stop) key) (htrimmed : Trimmed steps)
    (hedits : (editKinds steps).length ≤ maxEdits)
    (hapart : (editKinds steps).IsChain EditKind.Apart) :
    ∃ m ∈ t.lookup input maxEdits, m.value = n ∧ m.start = first ∧ m.stop = stop := by
  have hstart := isStart_search maxEdits 0 input
  -- At the root nothing is read and no edit was made, so only the ends of the steps matter.
  have hfollows : Follows input maxEdits (.root t.root first) steps := {
    text := by
      rw [haligns.source, List.extract_eq_take_drop]
      exact List.take_prefix _ _
    proper := haligns.proper
    edits := by simpa [Frame.root] using hedits
    apart := by simpa [Frame.root, Frame.lastEdit?] using hapart
    front := fun _ => htrimmed.front
    back := htrimmed.back }
  -- The steps spell the key, which leads from the root to its value.
  have hleads : t.Leads (Frame.root t.root first).node (steps.flatMap AlignStep.target) n := by
    rw [haligns.target]
    exact hs.leads hentry
  obtain ⟨f, hvisits, hn, hpos⟩ := hfollows.visits hw hplain hleads
  have hfstart : f.start = first := hvisits.start_eq
  have hcomes : Comes t (.search maxEdits 0 input) 0 f := by
    refine ⟨Nat.zero_le _, ?_, ?_, ?_⟩ <;> rw [hfstart]
    · exact hfirst
    · exact hfirst.le
    · exact hvisits
  have hweight : t.root.weight ≤ t.values.size := by
    rw [hs.weight, hs.size_values]
  obtain ⟨m, hm, hreports⟩ := exists_mem_matchesOf hstart hweight hcompletes hcomes hn
  refine ⟨m, hm, hreports.value, hreports.start.trans hfstart, ?_⟩
  rw [hreports.stop, hpos, haligns.source, List.extract_eq_take_drop, List.length_take,
    List.length_drop]
  show first + _ = stop
  omega

end Stores

/-- A value is found between two places of the text, with no more edits than allowed. -/
def FoundWithin (t : Transducer α) (input : List Char) (maxEdits first stop n : Nat) : Prop :=
  ∃ m ∈ t.lookup input maxEdits, m.value = n ∧ first ≤ m.start ∧ m.start ≤ m.stop ∧
    m.stop ≤ stop ∧ m.edits.length ≤ maxEdits

/-- What stands between other parts of a text is a part of it by itself. -/
private theorem extract_eq_of_append {xs front core back : List Char} {i j : Nat}
    (h : xs.extract i j = front ++ core ++ back) :
    xs.extract (i + front.length) (i + front.length + core.length) = core := by
  rw [List.extract_eq_take_drop] at h ⊢
  -- The front and the core are what the part begins with; without the front the core is left.
  have hlen := congrArg List.length h
  simp only [List.length_take, List.length_append] at hlen
  have hboth := congrArg (List.take (front.length + core.length)) h
  rw [List.take_take, Nat.min_eq_left (by omega), List.take_left' (List.length_append ..)] at hboth
  have hcore := congrArg (List.drop front.length) hboth
  rw [List.drop_take, List.drop_drop, List.drop_left, Nat.add_sub_cancel_left] at hcore
  rw [Nat.add_sub_cancel_left, hcore]

/-- A key is `FoundWithin` a part of the text if steps whose edits stand `Apart` make the part into
it. -/
theorem Stores.foundWithin (hs : t.Stores entries) (hw : t.WellNumbered) (hplain : wildcard ∉ input)
    (hcompletes : t.completes (.search maxEdits 0 input) = true) {x : α}
    (hentry : entries[n]? = some (key, x)) (hkey : key ≠ []) {first stop : Nat}
    (hfirst : first < stop) (hstop : stop ≤ input.length)
    (haligns : Aligns steps (input.extract first stop) key)
    (hedits : (editKinds steps).length ≤ maxEdits)
    (hapart : (editKinds steps).IsChain EditKind.Apart) :
    t.FoundWithin input maxEdits first stop n := by
  -- Deletions at both ends are left out; the core between them spells the key.
  obtain ⟨front, core, back, rfl, hfront, htrimmed, hback⟩ := exists_trimmed steps
  have htarget := haligns.target
  have hsource := haligns.source
  rw [List.flatMap_append, List.flatMap_append, flatMap_target_of_deletions hfront,
    flatMap_target_of_deletions hback, List.nil_append, List.append_nil] at htarget
  rw [List.flatMap_append, List.flatMap_append] at hsource
  rw [editKinds_append] at hedits hapart
  -- The match begins behind the deletions in front and stops before those behind.
  have hlen := congrArg List.length hsource
  rw [List.length_append, List.length_append, List.extract_eq_take_drop, List.length_take,
    List.length_drop] at hlen
  have hpart := extract_eq_of_append hsource.symm
  have hbegins : first + (front.flatMap AlignStep.source).length < input.length := by
    -- The match begins within the text: there is nothing in front, or the core reads a character.
    by_cases hfrontNil : front = []
    · subst hfrontNil
      simp only [List.flatMap_nil, List.length_nil]
      omega
    · have hcore : core ≠ [] := by
        rintro rfl
        exact hkey htarget.symm
      have hpos := List.length_pos_iff.2
        (flatMap_source_ne_nil hfront hfrontNil hcore hapart.left_of_append)
      omega
  have hcoreAligns : Aligns core (input.extract (first + (front.flatMap AlignStep.source).length)
      (first + (front.flatMap AlignStep.source).length +
        (core.flatMap AlignStep.source).length)) key := {
    proper := fun s hs => haligns.proper s (by simp [hs])
    source := hpart.symm
    target := htarget }
  rw [List.length_append, editKinds_append, List.length_append] at hedits
  rw [editKinds_append] at hapart
  obtain ⟨m, hm, hvalue, hmstart, hmstop⟩ := hs.exists_mem_lookup_of_trimmed hw hplain hcompletes
    hentry hbegins (Nat.le_add_right _ _) (by omega) hcoreAligns htrimmed (by omega)
    hapart.left_of_append.right_of_append
  obtain ⟨_, _, -, hcorrects⟩ := hs.corrects_of_mem_matchesOf hw
    (isStart_search maxEdits 0 input) hm
  exact ⟨m, hm, hvalue, by omega, hcorrects.start_le, by omega, hcorrects.edits_le⟩

/-- **What edits a lookup finds a key with.**  A key is `FoundWithin` a part of the text if steps
that `Aligns` names make the part into it with `maxEdits` edits at most, none beside one that it
could undo (`EditKind.Apart`). It is found as well if `editDistance` takes one edit at most between
the part and the key. -/
theorem edited_lookup {emptyKeys : Bool} (h : ofList emptyKeys entries = .ok t)
    (hplain : wildcard ∉ input) (hcompletes : t.completes (.search maxEdits 0 input) = true)
    {x : α} (hentry : entries[n]? = some (key, x)) (hkey : key ≠ []) {first stop : Nat}
    (hfirst : first < stop) (hstop : stop ≤ input.length) :
    (∀ steps, Aligns steps (input.extract first stop) key →
      (editKinds steps).length ≤ maxEdits → (editKinds steps).IsChain EditKind.Apart →
        t.FoundWithin input maxEdits first stop n) ∧
      (editDistance (input.extract first stop) key ≤ min maxEdits 1 →
        t.FoundWithin input maxEdits first stop n) := by
  have hs := stores_ofList h
  have hw := wellNumbered_ofList h
  have hfound {steps : List AlignStep} (haligns : Aligns steps (input.extract first stop) key)
      (hedits : (editKinds steps).length ≤ maxEdits)
      (hapart : (editKinds steps).IsChain EditKind.Apart) :=
    hs.foundWithin hw hplain hcompletes hentry hkey hfirst hstop haligns hedits hapart
  refine ⟨fun steps => hfound, fun hdistance => ?_⟩
  -- By the distance there is an alignment of one edit at most.
  obtain ⟨k, hk, hscript⟩ := editDistance_le_iff.1 hdistance
  obtain ⟨steps, haligns, hle⟩ := exists_aligns_of_edits hscript
  refine hfound haligns (by omega) ?_
  -- One edit has no other to undo.
  have hone : (editKinds steps).length ≤ 1 := by omega
  match editKinds steps, hone with
  | [], _ => exact .nil
  | [_], _ => exact .singleton _

theorem edited_lookup_twoEdits :
    ∃ t, ofList false [("abcdef".toList, ())] = .ok t ∧
      t.completes (.search 2 0 "xabdcexf".toList) = true ∧
      t.FoundWithin "xabdcexf".toList 2 1 8 0 := by
  have hfound : ((ofList false [("abcdef".toList, ())]).toOption.any
      (·.completes (.search 2 0 "xabdcexf".toList))) = true := by
    decide +kernel
  obtain ⟨t, ht, hcompletes⟩ := exists_eq_ok_of_any hfound
  -- Two characters are swapped, and one is deleted further on.
  have haligns : Aligns [.keep 'a', .keep 'b', .transpose 'd' 'c', .keep 'e', .delete 'x', .keep 'f']
      ("xabdcexf".toList.extract 1 8) "abcdef".toList :=
    ⟨by simp [AlignStep.Proper], by decide, by decide⟩
  refine ⟨t, ht, hcompletes, ?_⟩
  exact (edited_lookup ht (by decide) hcompletes rfl (by decide) (by decide) (by decide)).1 _ haligns
    (by decide) (by decide)

/-- A deletion is not tried behind an insertion, even where other characters are between them. -/
theorem not_foundWithin_of_distance :
    ∃ t, ofList false [("abcdef".toList, ())] = .ok t ∧
      t.completes (.search 2 0 "acdxef".toList) = true ∧
      editDistance "acdxef".toList "abcdef".toList = 2 ∧ t.lookup "acdxef".toList 2 = [] ∧
      ¬ t.FoundWithin "acdxef".toList 2 0 6 0 := by
  have hnone : ((ofList false [("abcdef".toList, ())]).toOption.any fun t =>
      t.completes (.search 2 0 "acdxef".toList) && t.lookup "acdxef".toList 2 == []) = true := by
    decide +kernel
  obtain ⟨t, ht, htests⟩ := exists_eq_ok_of_any hnone
  obtain ⟨hcompletes, hlookup⟩ := Bool.and_eq_true_iff.1 htests
  have hlookup := eq_of_beq hlookup
  refine ⟨t, ht, hcompletes, by decide +kernel, hlookup, ?_⟩
  rintro ⟨m, hm, -⟩
  rw [hlookup] at hm
  exact absurd hm List.not_mem_nil

end Transducer

end Morphology
