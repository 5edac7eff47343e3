import Morphology.Proofs.Grammar.Stages

/-!
# Inflexions of compiled grammars

The inflexions of a compiled grammar are read from entries, made as links to derivations, or joined
from others.  What all three ways of making an inflexion give, every inflexion of the grammar has.

## Main definitions

* `Inflexion.IsInvariant` — a property that every way of making inflexions gives
* `Flex.SelfFirst` — the sign for preceding the stem stands at most in front
* `Inflexion.IsOfEntry` — what an inflexion has of its entry
* `Inflexion.WellFormed` — only affixes have characters, and an inflexion that may precede its stem
  has the sign for it in front

## Main statements

* `Flex.selfFirst_of_read` — a flex has the sign at most in front
* `GrammarDraft.of_compile` — an invariant holds of every inflexion of a compiled grammar
* `GrammarDraft.wellFormed_of_compile` — the inflexions of a compiled grammar are well formed
-/

namespace Morphology

/-- A property that every way of making inflexions gives. -/
structure Inflexion.IsInvariant (P : Inflexion → Prop) : Prop where
  ofEntry : ∀ find? paradigm e i, Inflexion.ofEntry find? paradigm e = .ok i → P i
  link : ∀ handles, P (.link handles)
  join : ∀ i child joined, P i → P child → i.join? child = some joined → P joined

/-- A property of inflexions alone does not depend on the paradigms. -/
theorem Inflexion.IsInvariant.anyParadigms {P : Inflexion → Prop} (hP : IsInvariant P) :
    Paradigms.IsInvariant fun _ => P where
  grow := fun _ _ _ _ hi => hi
  ofEntry := fun _ _ _ _ _ he => hP.ofEntry _ _ _ _ he
  link := fun _ _ _ _ => hP.link _
  join := fun _ _ _ _ hi hchild _ _ hjoin => hP.join _ _ _ hi hchild hjoin

/-- An invariant holds in all paradigms of a compiled grammar. -/
theorem GrammarDraft.all_compile {P : Inflexion → Prop} (hP : Inflexion.IsInvariant P)
    (d : GrammarDraft) : d.compile.grammar.paradigms.All P :=
  (d.keeps_compile hP.anyParadigms).inflexions

/-- An invariant holds of every inflexion of a compiled grammar. -/
theorem GrammarDraft.of_compile {P : Inflexion → Prop} (hP : Inflexion.IsInvariant P)
    (d : GrammarDraft) {id : InflexionId} {i : Inflexion}
    (hi : d.compile.grammar.inflexion? id = some i) : P i := by
  obtain ⟨p, hp, hget⟩ := Option.bind_eq_some_iff.1 hi
  exact d.all_compile hP _ p hp i (List.mem_of_getElem? hget)

/-! ## Parts of flexes -/

/-- A part has characters only where it is an affix. -/
def FlexPart.Spelled (p : FlexPart) : Prop :=
  p.role = .empty ∨ p.role.isMarker = true → p.surface = []

namespace Flex

/-- A part as it is read: markers have no characters, and nothing is empty yet. -/
private structure IsRead (p : FlexPart) : Prop where
  marker : p.role.isMarker = true → p.surface = []
  notEmpty : p.role ≠ .empty

private theorem isRead_marker {role : Role} (h : role ≠ .empty) : IsRead (.marker role) :=
  ⟨fun _ => rfl, h⟩

/-- A part as a flex is read behind the sign for preceding the stem. -/
private structure IsItem (p : FlexPart) : Prop extends IsRead p where
  notSelf : p.role ≠ .startWithSelf

private theorem isItem_marker {role : Role} (h : role ≠ .empty) (hself : role ≠ .startWithSelf) :
    IsItem (.marker role) :=
  ⟨isRead_marker h, hself⟩

private theorem isItem_affix (text : List Char) {role : Role} (h : role.isMarker = false)
    (hne : role ≠ .empty) : IsItem (.affix text role) where
  marker := fun hm => absurd (h.symm.trans hm) Bool.false_ne_true
  notEmpty := hne
  notSelf := by
    intro hself
    rw [show role = .startWithSelf from hself] at h
    exact absurd h (by decide)

private theorem isItem_plainParts {text : List Char} {p : FlexPart} (h : p ∈ plainParts text) :
    IsItem p := by
  unfold plainParts at h
  split at h
  · exact absurd h List.not_mem_nil
  · rw [List.mem_singleton.1 h]
    exact isItem_affix text rfl (by decide)

private theorem isItem_plainStep {text : List Char} {c : Char} {parts : List FlexPart}
    {pending : Pending} (h : plainStep text c = .ok (parts, pending)) :
    ∀ p ∈ parts, IsItem p := by
  intro p hp
  unfold plainStep at h
  split at h
  · -- The text before a special character is an affix, and some of these are parts themselves.
    obtain ⟨rfl, -⟩ := Prod.mk.inj (Except.ok.inj h)
    rcases List.mem_append.1 hp with hp | hp
    · exact isItem_plainParts hp
    · rw [List.mem_singleton.1 hp]
      exact isItem_marker (by decide) (by decide)
  · obtain ⟨rfl, -⟩ := Prod.mk.inj (Except.ok.inj h)
    exact isItem_plainParts hp
  · obtain ⟨rfl, -⟩ := Prod.mk.inj (Except.ok.inj h)
    exact isItem_plainParts hp
  · obtain ⟨rfl, -⟩ := Prod.mk.inj (Except.ok.inj h)
    exact isItem_plainParts hp
  · split at h
    · obtain ⟨rfl, -⟩ := Prod.mk.inj (Except.ok.inj h)
      exact absurd hp List.not_mem_nil
    · obtain ⟨rfl, -⟩ := Prod.mk.inj (Except.ok.inj h)
      rw [List.mem_singleton.1 hp]
      exact isItem_affix text rfl (by decide)
  · exact absurd h (by simp)
  · exact absurd h (by simp)
  · obtain ⟨rfl, -⟩ := Prod.mk.inj (Except.ok.inj h)
    exact absurd hp List.not_mem_nil

private theorem isItem_squarePart (text : List Char) : IsItem (squarePart text) := by
  unfold squarePart
  split
  · exact isItem_marker (by decide) (by decide)
  · exact ⟨⟨fun _ => rfl, by simp [FlexPart.stemSpec]⟩, by simp [FlexPart.stemSpec]⟩

private theorem isItem_anglePart (text : List Char) : IsItem (anglePart text) := by
  unfold anglePart
  split
  · exact isItem_marker (by decide) (by decide)
  · split
    · exact isItem_marker (by decide) (by decide)
    · exact isItem_affix text rfl (by decide)

private theorem isItem_step {before after : Pending} {c : Char} {parts : List FlexPart}
    (h : step before c = .ok (parts, after)) : ∀ p ∈ parts, IsItem p := by
  intro p hp
  cases before with
  | plain text => exact isItem_plainStep h p hp
  | square text =>
    simp only [step] at h
    -- Behind the closing bracket a part is made of the text in brackets.
    split at h
    · split at h
      · exact absurd h (by simp)
      · obtain ⟨rfl, -⟩ := Prod.mk.inj (Except.ok.inj h)
        rw [List.mem_singleton.1 hp]
        exact isItem_squarePart text
    · obtain ⟨rfl, -⟩ := Prod.mk.inj (Except.ok.inj h)
      exact absurd hp List.not_mem_nil
  | angle text =>
    simp only [step] at h
    split at h
    · split at h
      · exact absurd h (by simp)
      · obtain ⟨rfl, -⟩ := Prod.mk.inj (Except.ok.inj h)
        rw [List.mem_singleton.1 hp]
        exact isItem_anglePart text
    · obtain ⟨rfl, -⟩ := Prod.mk.inj (Except.ok.inj h)
      exact absurd hp List.not_mem_nil
  | redupl text =>
    simp only [step] at h
    split at h
    · split at h
      · exact absurd h (by simp)
      · -- Behind a tilde the text goes on to the next special character, which is read like any
        -- other.
        obtain ⟨⟨made, pending⟩, hplain, h⟩ := bind_eq_ok_iff.1 h
        obtain ⟨rfl, rfl⟩ := Prod.mk.inj (Except.ok.inj h)
        rcases List.mem_cons.1 hp with rfl | hp
        · exact isItem_affix text rfl (by decide)
        · exact isItem_plainStep hplain p hp
    · obtain ⟨rfl, -⟩ := Prod.mk.inj (Except.ok.inj h)
      exact absurd hp List.not_mem_nil

private theorem isItem_finish {pending : Pending} {parts : List FlexPart}
    (h : finish pending = .ok parts) : ∀ p ∈ parts, IsItem p := by
  intro p hp
  cases pending with
  | plain text =>
    obtain rfl : plainParts text = parts := Except.ok.inj h
    exact isItem_plainParts hp
  | square text | angle text => exact absurd h (by simp [finish])
  | redupl text =>
    simp only [finish] at h
    split at h
    · exact absurd h (by simp)
    · obtain rfl := Except.ok.inj h
      rw [List.mem_singleton.1 hp]
      exact isItem_affix text rfl (by decide)

private theorem isItem_scan {pending : Pending} {text : List Char} {parts : List FlexPart}
    (h : scan pending text = .ok parts) : ∀ p ∈ parts, IsItem p := by
  induction text generalizing pending parts with
  | nil => exact isItem_finish h
  | cons c rest ih =>
    rw [scan] at h
    obtain ⟨⟨made, pending'⟩, hstep, h⟩ := bind_eq_ok_iff.1 h
    obtain ⟨more, hscan, h⟩ := bind_eq_ok_iff.1 h
    obtain rfl := Except.ok.inj h
    intro p hp
    rcases List.mem_append.1 hp with hp | hp
    · exact isItem_step hstep p hp
    · exact ih hscan p hp

private theorem isRead_writtenParts {flex : List Char} {parts : List FlexPart}
    (h : writtenParts flex = .ok parts) : ∀ p ∈ parts, IsRead p := by
  unfold writtenParts at h
  split at h
  · obtain ⟨made, hscan, h⟩ := bind_eq_ok_iff.1 h
    obtain rfl := Except.ok.inj h
    intro p hp
    rcases List.mem_cons.1 hp with rfl | hp
    · exact isRead_marker (by decide)
    · exact (isItem_scan hscan p hp).toIsRead
  · exact fun p hp => (isItem_scan h p hp).toIsRead

private theorem isRead_withBoundary {parts : List FlexPart} (h : ∀ p ∈ parts, IsRead p) :
    ∀ p ∈ withBoundary parts, IsRead p := by
  have hstem : IsRead (.marker .stem) := isRead_marker (by decide)
  unfold withBoundary
  split
  · exact h
  -- The boundary is put in front, or behind the sign for preceding the stem.
  · split
    · split
      · intro p hp
        simp only [List.mem_cons] at h hp
        rcases hp with rfl | rfl | hp
        · exact h _ (.inl rfl)
        · exact hstem
        · exact h p (.inr hp)
      · intro p hp
        rcases List.mem_cons.1 hp with rfl | hp
        · exact hstem
        · exact h p hp
    · intro p hp
      rw [List.mem_singleton.1 hp]
      exact hstem

private theorem spelled_distribute {parts : List FlexPart} (h : ∀ p ∈ parts, IsRead p)
    (slices : List String) : ∀ p ∈ distribute parts slices, p.Spelled := by
  have hread {p : FlexPart} (hp : IsRead p) : p.Spelled := by
    rintro (hempty | hmarker)
    · exact absurd hempty hp.notEmpty
    · exact hp.marker hmarker
  induction parts generalizing slices with
  | nil => exact fun p hp => absurd hp List.not_mem_nil
  | cons q rest ih =>
    obtain ⟨hq, hrest⟩ := List.forall_mem_cons.1 h
    intro p hp
    unfold distribute at hp
    split at hp
    · split at hp
      · rcases List.mem_cons.1 hp with rfl | hp
        · exact hread ⟨hq.marker, hq.notEmpty⟩
        · exact ih hrest _ p hp
      · rcases List.mem_cons.1 hp with rfl | hp
        · -- A part that becomes empty has no characters.
          split
          · rename_i hsurface
            exact fun _ => List.isEmpty_iff.1 hsurface
          · exact hread hq
        · exact ih hrest _ p hp
    · rcases List.mem_cons.1 hp with rfl | hp
      · exact hread hq
      · exact ih hrest _ p hp

private theorem mem_insertAffix {x p : FlexPart} {parts : List FlexPart}
    (h : p ∈ insertAffix x parts) : p = x ∨ p ∈ parts := by
  induction parts with
  | nil => exact .inl (List.mem_singleton.1 h)
  | cons q rest ih =>
    rw [insertAffix] at h
    split at h
    · exact List.mem_cons.1 h
    · rcases List.mem_cons.1 h with rfl | h
      · exact .inr (List.mem_cons_self ..)
      · exact (ih h).imp_right (List.mem_cons_of_mem _)

/-- The parts that a flex stands for are `Spelled`: they have characters only where they are
affixes. -/
theorem spelled_of_read {flex gloss : String} {parts : List FlexPart} (h : read flex = .ok parts) :
    ∀ p ∈ assignGlosses parts gloss, p.Spelled := by
  have hread : ∀ p ∈ parts, IsRead p := by
    unfold read at h
    obtain ⟨written, hwritten, rfl⟩ := map_eq_ok_iff.1 h
    exact isRead_withBoundary (isRead_writtenParts hwritten)
  unfold assignGlosses
  split
  · -- The glosses are given to the parts in order, or there is a part for a single gloss more.
    exact spelled_distribute hread []
  · split
    · exact spelled_distribute hread _
    · intro p hp
      rcases mem_insertAffix hp with rfl | hp
      · exact fun _ => rfl
      · rintro (hempty | hmarker)
        · exact absurd hempty (hread p hp).notEmpty
        · exact (hread p hp).marker hmarker

/-! ### The sign in front -/

/-- The sign for preceding the stem stands at most in front. -/
def SelfFirst (parts : List FlexPart) : Prop :=
  ∀ p ∈ parts.tail, p.role ≠ .startWithSelf

/-- The sign for preceding the stem is not among what is read behind it. -/
theorem ne_self_of_scan {pending : Pending} {text : List Char} {parts : List FlexPart}
    (h : scan pending text = .ok parts) : ∀ p ∈ parts, p.role ≠ .startWithSelf :=
  fun p hp => (isItem_scan h p hp).notSelf

private theorem selfFirst_writtenParts {flex : List Char} {parts : List FlexPart}
    (h : writtenParts flex = .ok parts) : SelfFirst parts := by
  intro p hp
  unfold writtenParts at h
  split at h
  · obtain ⟨made, hscan, h⟩ := bind_eq_ok_iff.1 h
    obtain rfl := Except.ok.inj h
    exact ne_self_of_scan hscan p hp
  · exact ne_self_of_scan h p (List.mem_of_mem_tail hp)

private theorem selfFirst_withBoundary {parts : List FlexPart} (h : SelfFirst parts) :
    SelfFirst (withBoundary parts) := by
  unfold withBoundary
  split
  · exact h
  · split
    · rename_i p rest _
      split
      · exact List.forall_mem_cons.2 ⟨nofun, h⟩
      · rename_i hself
        exact List.forall_mem_cons.2 ⟨hself, h⟩
    · exact fun _ hp => absurd hp List.not_mem_nil

/-- What a flex is read as has the sign at most in front. -/
theorem selfFirst_read {flex : String} {parts : List FlexPart} (h : read flex = .ok parts) :
    SelfFirst parts := by
  obtain ⟨written, hwritten, rfl⟩ := map_eq_ok_iff.1 h
  exact selfFirst_withBoundary (selfFirst_writtenParts hwritten)

private theorem ne_self_of_mem_distribute {parts : List FlexPart} {slices : List String}
    (h : ∀ p ∈ parts, p.role ≠ .startWithSelf) :
    ∀ p ∈ distribute parts slices, p.role ≠ .startWithSelf := by
  induction parts generalizing slices with
  | nil => exact fun _ hp => absurd hp List.not_mem_nil
  | cons q rest ih =>
    obtain ⟨hq, hrest⟩ := List.forall_mem_cons.1 h
    unfold distribute
    split
    · split
      · exact List.forall_mem_cons.2 ⟨hq, ih hrest⟩
      · refine List.forall_mem_cons.2 ⟨?_, ih hrest⟩
        split
        · nofun
        · exact hq
    · exact List.forall_mem_cons.2 ⟨hq, ih hrest⟩

private theorem selfFirst_distribute {parts : List FlexPart} (h : SelfFirst parts)
    (slices : List String) : SelfFirst (distribute parts slices) := by
  cases parts with
  | nil => exact h
  | cons q rest =>
    have hrest (slices : List String) :
        ∀ p ∈ distribute rest slices, p.role ≠ .startWithSelf :=
      ne_self_of_mem_distribute h
    unfold distribute
    split
    · split
      · exact hrest _
      · exact hrest _
    · exact hrest _

/-- An inflexion has the sign for preceding the stem at most in front: `SelfFirst`. -/
theorem selfFirst_of_read {flex gloss : String} {parts : List FlexPart}
    (h : read flex = .ok parts) : SelfFirst (assignGlosses parts gloss) := by
  have hparts := selfFirst_read h
  unfold assignGlosses
  split
  · exact selfFirst_distribute hparts []
  · split
    · exact selfFirst_distribute hparts _
    · -- A part put in front of the first one is in front of a continuation.
      cases parts with
      | nil => exact fun _ hp => absurd hp List.not_mem_nil
      | cons q rest =>
        intro p hp
        rw [insertAffix] at hp
        split at hp
        · -- The first part leads on, and the new one stands in front of it.
          rename_i hrole
          rcases List.mem_cons.1 hp with rfl | hp
          · rw [hrole]
            nofun
          · exact hparts p hp
        · rcases mem_insertAffix hp with rfl | hp
          · nofun
          · exact hparts p hp

end Flex

/-! ## Well-formed inflexions -/

namespace Inflexion

/-- Only affixes have characters, and an inflexion that may precede its stem has the sign for it in
front. -/
structure WellFormed (i : Inflexion) : Prop where
  spelled : ∀ p ∈ i.parts, p.Spelled
  self : i.startWithSelf = true → (i.parts.head?.map (·.role)) = some .startWithSelf

theorem mem_splice {inserted parts : List FlexPart} {p : FlexPart} (h : p ∈ splice inserted parts) :
    p ∈ inserted ∨ p ∈ parts := by
  induction parts with
  | nil => exact absurd h List.not_mem_nil
  | cons q rest ih =>
    rw [splice] at h
    split at h
    · exact (List.mem_append.1 h).imp_right (List.mem_cons_of_mem _)
    · rcases List.mem_cons.1 h with rfl | h
      · exact .inr (List.mem_cons_self ..)
      · exact (ih h).imp_right (List.mem_cons_of_mem _)

theorem WellFormed.ofFlex {flex gloss gramm : String} {i : Inflexion}
    (h : ofFlex flex gloss gramm = .ok i) : i.WellFormed := by
  unfold Inflexion.ofFlex at h
  obtain ⟨parts, hread, rfl⟩ := map_eq_ok_iff.1 h
  exact ⟨Flex.spelled_of_read hread, fun hself => by simpa [ofParts] using hself⟩

/-- An entry becomes an inflexion with the parts of its flex, with the inflexion of its lemma
changer and with the paradigms that it names, of which there are some if it continues. -/
structure IsOfEntry (find? : String → Option Handle) (paradigm : String) (e : InflexionEntry)
    (i : Inflexion) : Prop where
  flex : ∃ made, Inflexion.ofFlex e.flex e.gloss e.gramm = .ok made ∧ i.parts = made.parts ∧
    i.startWithSelf = made.startWithSelf
  changer : ∀ c, i.lemmaChanger = some c →
    ∃ e', e.lemmaChanger = some e' ∧ Inflexion.ofEntry find? paradigm e' = .ok c
  subsequent : ∃ origin, resolveParadigms find? origin e.paradigms = .ok i.subsequent
  leads : i.continues = true → i.subsequent ≠ []

theorem isOfEntry {find? : String → Option Handle} {paradigm : String} {e : InflexionEntry}
    {i : Inflexion} (h : Inflexion.ofEntry find? paradigm e = .ok i) :
    IsOfEntry find? paradigm e i := by
  obtain ⟨flex, gramm, gloss, stemNums, tests, lemmaChanger, position, paradigms, replaceGrammar,
    keepOtherData⟩ := e
  unfold Inflexion.ofEntry at h
  dsimp only at h
  split at h
  · rename_i made hmade
    -- The flex was read, and so were all fields behind it.
    obtain ⟨_, hread, h⟩ := bind_eq_ok_iff.1 h
    obtain rfl := Except.ok.inj hread
    obtain ⟨tests, -, h⟩ := bind_eq_ok_iff.1 h
    obtain ⟨changer, hchanger, h⟩ := bind_eq_ok_iff.1 h
    obtain ⟨subsequent, hsubsequent, h⟩ := bind_eq_ok_iff.1 h
    split at h
    · exact absurd h (by simp)
    · -- The further fields of the entry leave the parts as they are.
      rename_i hleads
      obtain rfl := Except.ok.inj h
      refine ⟨⟨made, hmade, rfl, rfl⟩, fun c hc => ?_, ⟨_, hsubsequent⟩, fun hcont hnil => ?_⟩
      · cases lemmaChanger with
        | none =>
          obtain rfl := Except.ok.inj hchanger
          exact absurd hc (by simp)
        | some e' =>
          obtain ⟨c', hc', rfl⟩ := map_eq_ok_iff.1 hchanger
          obtain rfl := Option.some.inj hc
          exact ⟨e', rfl, hc'⟩
      · -- An inflexion that continues leads to a paradigm, or is refused.
        have hnil' : subsequent = [] := hnil
        have hcont' : made.continues = true := hcont
        exact hleads (by simp [hcont', hnil'])
  · obtain ⟨_, hread, -⟩ := bind_eq_ok_iff.1 h
    exact absurd hread (by simp)

theorem WellFormed.ofEntry {find? : String → Option Handle} {paradigm : String}
    {e : InflexionEntry} {i : Inflexion} (h : Inflexion.ofEntry find? paradigm e = .ok i) :
    i.WellFormed := by
  obtain ⟨made, hmade, hparts, hself⟩ := (isOfEntry h).flex
  have hwf := WellFormed.ofFlex hmade
  refine ⟨?_, ?_⟩
  · rw [hparts]
    exact hwf.spelled
  · rw [hparts, hself]
    exact hwf.self

/-- The inflexions of compiled grammars are `WellFormed`. -/
theorem isInvariant_wellFormed : IsInvariant WellFormed where
  ofEntry := fun _ _ _ _ h => .ofEntry h
  link := by
    intro handles
    exact ⟨by simp [link, ofParts], by simp [link, ofParts]⟩
  join := by
    intro i child joined hi hchild h
    unfold join? at h
    split at h
    · obtain rfl := Option.some.inj h
      refine ⟨fun p hp => ?_, fun hself => ?_⟩
      · -- A part of the join comes from the child or from the inflexion itself.
        rcases mem_splice hp with hp | hp
        · exact hchild.spelled p (List.mem_filter.1 hp).1
        · exact hi.spelled p hp
      · have hhead := hi.self hself
        -- The sign in front is not the continuation, so the child comes behind it.
        cases hparts : i.parts with
        | nil => simp [hparts] at hhead
        | cons q rest =>
          have hq : q.role = .startWithSelf := by simpa [hparts] using hhead
          simp [splice, hq]
    · exact absurd h (by simp)

end Inflexion

theorem GrammarDraft.wellFormed_of_compile (d : GrammarDraft) {id : InflexionId} {i : Inflexion}
    (hi : d.compile.grammar.inflexion? id = some i) : i.WellFormed :=
  d.of_compile Inflexion.isInvariant_wellFormed hi

end Morphology
