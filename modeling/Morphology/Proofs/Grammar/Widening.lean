import Morphology.Proofs.Grammar.Joins
import Morphology.Proofs.Search.Chains

/-!
# Widening

Widening puts the joins of an inflexion in its place.  A chain through the inflexion becomes a
shorter one through a join, and both merge into the same inflexion, so that no wordform is won or
lost.  An inflexion is joined only with inflexions that end a chain; hence it is always the end of a
chain that becomes shorter.  The chains are those of `Grammar.Concludes`, in which every
continuation is filled, and the wordforms those of `Grammar.Builds`.

## Main definitions

* `Paradigms.IsWidening` — paradigms in which inflexions of other ones may be joined
* `Grammar.SameFrame` — grammars with the same paradigms but for inflexions
* `Grammar.IsWidening` — a grammar with widened paradigms

## Main statements

* `Paradigms.isWidening_widen` — widening is a widening
* `Grammar.IsWidening.builds_iff` — a widened grammar builds the same wordforms
* `GrammarDraft.builds_compile_iff` — whether a draft is compiled with widening or not
-/

namespace Morphology

/-! ## Widened paradigms -/

/-- A paradigm without its inflexions. -/
def Paradigm.frame (p : Paradigm) : Paradigm := { p with inflexions := [] }

theorem Paradigm.name_eq_of_frame {p q : Paradigm} (h : p.frame = q.frame) : p.name = q.name := by
  have : p.frame.name = q.frame.name := by rw [h]
  exact this

theorem Paradigm.isDerivational_eq_of_frame {p q : Paradigm} (h : p.frame = q.frame) :
    p.isDerivational = q.isDerivational := by
  have : p.frame.isDerivational = q.frame.isDerivational := by rw [h]
  exact this

theorem Paradigm.derivation_eq_of_frame {p q : Paradigm} (h : p.frame = q.frame) :
    p.derivation = q.derivation := by
  have : p.frame.derivation = q.frame.derivation := by rw [h]
  exact this

namespace Paradigms

variable {ps ps' : Paradigms} {config : GrammarConfig} {h h' : Handle} {i j : Inflexion}
  {joins closed : List Inflexion}

/-- An inflexion stands in the paradigm under a handle. -/
def Has (ps : Paradigms) (h : Handle) (i : Inflexion) : Prop :=
  ∃ p, ps.get? h = some p ∧ i ∈ p.inflexions

theorem has_iff : ps.Has h i ↔ ∃ n, ps.inflexion? ⟨h, n⟩ = some i := by
  constructor
  · rintro ⟨p, hp, hi⟩
    obtain ⟨n, hn⟩ := List.getElem?_of_mem hi
    exact ⟨n, by simp [inflexion?, hp, hn]⟩
  · rintro ⟨n, hi⟩
    obtain ⟨p, hp, hn⟩ := Option.bind_eq_some_iff.1 hi
    exact ⟨p, hp, List.mem_of_getElem? hn⟩

/-! ### Frames -/

/-- Paradigms that differ in their inflexions only stand under the same handles. -/
theorem exists_of_frame {p' : Paradigm}
    (hframe : ∀ h, (ps'.get? h).map Paradigm.frame = (ps.get? h).map Paradigm.frame)
    (hp' : ps'.get? h = some p') : ∃ p, ps.get? h = some p ∧ p.frame = p'.frame := by
  have heq := hframe h
  rw [hp', Option.map_some] at heq
  exact Option.map_eq_some_iff.1 heq.symm

theorem frame_modifyInflexions (ps : Paradigms) (h h' : Handle)
    (f : List Inflexion → List Inflexion) :
    ((ps.modifyInflexions h f).get? h').map Paradigm.frame = (ps.get? h').map Paradigm.frame := by
  rw [get?_modifyInflexions]
  split
  · rename_i heq
    rw [heq, Option.map_map]
    rfl
  · rfl

/-! ### One inflexion -/

theorem has_of_closedInflexions? (h : ps.closedInflexions? h' = some closed) :
    ps.Has h' i ↔ i ∈ closed := by
  obtain ⟨p, hp, -, rfl, -⟩ := closedInflexions?_eq_some_iff.1 h
  constructor
  · rintro ⟨q, hq, hi⟩
    obtain rfl : p = q := Option.some.inj (hp.symm.trans hq)
    exact hi
  · exact fun hi => ⟨p, hp, hi⟩

/-- An inflexion that does not continue is not widened. -/
theorem widenInflexion?_of_closed (h : i.continues = false) :
    ps.widenInflexion? config i = none := by
  unfold widenInflexion?
  rw [if_neg]
  intro hwidenable
  have hone := (continuations_of_isWidenable hwidenable).1
  have hcont : i.continues = true := Inflexion.continues_iff.2 (by omega)
  exact Bool.false_ne_true (h.symm.trans hcont)

/-! ### One paradigm -/

theorem get?_widenParadigm (ps : Paradigms) (config : GrammarConfig) (h h' : Handle) :
    (ps.widenParadigm config h).get? h' = (ps.get? h').map fun p =>
      if h' = h then
        { p with
          inflexions := p.inflexions.flatMap fun i => (ps.widenInflexion? config i).getD [i] }
      else p := by
  rw [widenParadigm, get?_modifyInflexions]
  split
  · rename_i heq
    rw [heq]
  · exact (Option.map_id' ..).symm

/-- An inflexion is kept, or its joins come in its place. -/
theorem Has.widenParadigm (hi : ps.Has h' i) (config : GrammarConfig) (h : Handle) :
    (ps.widenParadigm config h).Has h' i ∨ ∃ joins, ps.widenInflexion? config i = some joins ∧
      ∀ j ∈ joins, (ps.widenParadigm config h).Has h' j := by
  obtain ⟨p, hp, hmem⟩ := hi
  have hget := get?_widenParadigm ps config h h'
  rw [hp, Option.map_some] at hget
  by_cases heq : h' = h
  · rw [if_pos heq] at hget
    cases hwiden : ps.widenInflexion? config i with
    | none =>
      refine .inl ⟨_, hget, List.mem_flatMap.2 ⟨i, hmem, ?_⟩⟩
      simp [hwiden]
    | some joins =>
      refine .inr ⟨joins, rfl, fun j hj => ⟨_, hget, List.mem_flatMap.2 ⟨i, hmem, ?_⟩⟩⟩
      simpa [hwiden] using hj
  · rw [if_neg heq] at hget
    exact .inl ⟨p, hget, hmem⟩

/-- What stands in a widened paradigm has stood there before, or is a join. -/
theorem has_of_has_widenParadigm (hj : (ps.widenParadigm config h).Has h' j) :
    ps.Has h' j ∨ ∃ i joins, ps.Has h' i ∧ ps.widenInflexion? config i = some joins ∧
      j ∈ joins := by
  obtain ⟨q, hq, hmem⟩ := hj
  rw [get?_widenParadigm] at hq
  obtain ⟨p, hp, rfl⟩ := Option.map_eq_some_iff.1 hq
  split at hmem
  · obtain ⟨i, hi, hmem⟩ := List.mem_flatMap.1 hmem
    cases hwiden : ps.widenInflexion? config i with
    | none =>
      obtain rfl : j = i := by simpa [hwiden] using hmem
      exact .inl ⟨p, hp, hi⟩
    | some joins =>
      rw [hwiden] at hmem
      exact .inr ⟨i, joins, ⟨p, hp, hi⟩, hwiden, hmem⟩
  · exact .inl ⟨p, hp, hmem⟩

/-- Paradigms that may be joined stay as they are. -/
theorem closedInflexions?_widenParadigm (hclosed : ps.closedInflexions? h' = some closed)
    (config : GrammarConfig) (h : Handle) :
    (ps.widenParadigm config h).closedInflexions? h' = some closed := by
  obtain ⟨p, hp, hplain, rfl, hopen⟩ := closedInflexions?_eq_some_iff.1 hclosed
  have hsame : (p.inflexions.flatMap fun i => (ps.widenInflexion? config i).getD [i]) =
      p.inflexions := by
    conv_rhs => rw [← List.flatMap_singleton' p.inflexions]
    apply List.flatMap_congr
    intro i hi
    rw [widenInflexion?_of_closed (hopen i hi).2.1, Option.getD_none]
  refine closedInflexions?_eq_some_iff.2 ⟨p, ?_, hplain, rfl, hopen⟩
  rw [get?_widenParadigm, hp, Option.map_some, hsame]
  split <;> rfl

/-! ### All paradigms -/

/-- The inflexions that those of a paradigm become when they are joined, again and again, with
inflexions that do not lead on. -/
inductive Unfolds (ps : Paradigms) : Handle → Inflexion → Prop
  | own {h : Handle} {i : Inflexion} (hi : ps.Has h i) : Unfolds ps h i
  | join {h next : Handle} {q : Paradigm} {i child joined : Inflexion} (hi : ps.Has h i)
      (hlink : i.isLink = false) (hone : i.continuations = 1) (hnext : next ∈ i.subsequent)
      (hq : ps.get? next = some q) (hplain : q.isDerivational = false)
      (hchild : Unfolds ps next child) (hchildLink : child.isLink = false)
      (hclosed : child.continues = false) (hjoin : i.join? child = some joined) :
      Unfolds ps h joined

/-- An inflexion that still continues is no join. -/
theorem Unfolds.has_of_continues (hj : ps.Unfolds h j) (hcont : j.continues = true) :
    ps.Has h j := by
  cases hj with
  | own hi => exact hi
  | join _ _ hone _ _ _ _ _ hclosed hjoin =>
    have := Inflexion.continues_of_join? hjoin hone hclosed
    exact absurd (this.symm.trans hcont) Bool.false_ne_true

/-- An inflexion is in a paradigm, or instead of it all its joins are. -/
def Stands (ps : Paradigms) (h : Handle) (i : Inflexion) : Prop :=
  ps.Has h i ∨ i.continuations = 1 ∧
    ∀ next ∈ i.subsequent, ∃ closed, ps.closedInflexions? next = some closed ∧
      ∀ child ∈ closed, ∀ joined, i.join? child = some joined → ps.Has h joined

/-- Paradigms are others with inflexions joined: they have no new inflexions but joins, and have all
joins of every inflexion that is gone. -/
structure IsWidening (ps ps' : Paradigms) : Prop where
  names : ps'.names = ps.names
  frame : ∀ h, (ps'.get? h).map Paradigm.frame = (ps.get? h).map Paradigm.frame
  stands : ∀ h i, ps.Has h i → ps'.Stands h i
  unfolds : ∀ h j, ps'.Has h j → ps.Unfolds h j

namespace IsWidening

theorem refl (ps : Paradigms) : ps.IsWidening ps where
  names := rfl
  frame := fun _ => rfl
  stands := fun _ _ hi => .inl hi
  unfolds := fun _ _ hj => .own hj

theorem exists_paradigm (hw : ps.IsWidening ps') {q' : Paradigm} (hq' : ps'.get? h = some q') :
    ∃ q, ps.get? h = some q ∧ q.isDerivational = q'.isDerivational := by
  obtain ⟨q, hq, hsame⟩ := exists_of_frame hw.frame hq'
  exact ⟨q, hq, Paradigm.isDerivational_eq_of_frame hsame⟩

/-- Whatever stands in the widened paradigms before a further one is widened, still does, itself or
in its joins. -/
private theorem stands_widenParadigm (hi : ps'.Stands h i) (config : GrammarConfig) (h' : Handle) :
    (ps'.widenParadigm config h').Stands h i := by
  rcases hi with hi | ⟨hone, hall⟩
  · rcases hi.widenParadigm config h' with hkept | ⟨joins, hwiden, hjoins⟩
    · exact .inl hkept
    · obtain ⟨hwidenable, hclosed, hmem⟩ := of_widenInflexion? hwiden
      refine .inr ⟨(continuations_of_isWidenable hwidenable).1, fun next hnext => ?_⟩
      obtain ⟨closed, hnow⟩ := hclosed next hnext
      refine ⟨closed, closedInflexions?_widenParadigm hnow config h', ?_⟩
      intro child hchild j hjoin
      exact hjoins j ((hmem j).2 ⟨next, hnext, closed, hnow, child, hchild, hjoin⟩)
  · refine .inr ⟨hone, fun next hnext => ?_⟩
    obtain ⟨closed, hnow, hjoins⟩ := hall next hnext
    refine ⟨closed, closedInflexions?_widenParadigm hnow config h', fun child hchild j hjoin => ?_⟩
    obtain ⟨-, -, -, -, hopen⟩ := closedInflexions?_eq_some_iff.1 hnow
    -- A join does not continue, and so is not widened.
    have hend := Inflexion.continues_of_join? hjoin hone (hopen child hchild).2.1
    rcases (hjoins child hchild j hjoin).widenParadigm config h' with hkept | ⟨_, hwiden, -⟩
    · exact hkept
    · exact absurd ((widenInflexion?_of_closed hend).symm.trans hwiden) (by simp)

/-- One more paradigm may be widened. -/
theorem widenParadigm (hw : ps.IsWidening ps') (config : GrammarConfig) (h : Handle) :
    ps.IsWidening (ps'.widenParadigm config h) where
  names := hw.names
  frame := fun h' => (frame_modifyInflexions ps' h h' _).trans (hw.frame h')
  stands := fun h' i hi => stands_widenParadigm (hw.stands h' i hi) config h
  unfolds := by
    intro h' j hj
    rcases has_of_has_widenParadigm hj with hj | ⟨i, joins, hi, hwiden, hj⟩
    · exact hw.unfolds h' j hj
    · obtain ⟨hwidenable, -, hmem⟩ := of_widenInflexion? hwiden
      obtain ⟨hone, hlink⟩ := continuations_of_isWidenable hwidenable
      obtain ⟨next, hnext, closed, hclosed, child, hchild, hjoin⟩ := (hmem j).1 hj
      obtain ⟨q', hq', hplain, -, hopen⟩ := closedInflexions?_eq_some_iff.1 hclosed
      obtain ⟨q, hq, hder⟩ := hw.exists_paradigm hq'
      obtain ⟨hchildLink, hchildEnd, -⟩ := hopen child hchild
      -- The inflexion widened now still continues, and so is none of the joins made before.
      have hown := (hw.unfolds h' i hi).has_of_continues
        (Inflexion.continues_iff.2 (by omega))
      exact .join hown hlink hone hnext hq (hder.trans hplain)
        (hw.unfolds next child ((has_of_closedInflexions? hclosed).2 hchild)) hchildLink hchildEnd
        hjoin

end IsWidening

/-- Widening joins inflexions and does nothing else. -/
theorem isWidening_widen (ps : Paradigms) (config : GrammarConfig) :
    ps.IsWidening (ps.widen config) :=
  widen_induction ps config (.refl ps) fun _ hw h _ => hw.widenParadigm config h

end Paradigms

/-! ## Grammars with the same paradigms but for inflexions -/

namespace Grammar

/-- Two grammars have the same limits, and paradigms that differ in their inflexions only. -/
structure SameFrame (g g' : Grammar) : Prop where
  recursLimit : g'.config.recursLimit = g.config.recursLimit
  maxDerivations : g'.config.maxDerivations = g.config.maxDerivations
  frame : ∀ h, (g'.paradigm? h).map Paradigm.frame = (g.paradigm? h).map Paradigm.frame

variable {g g' : Grammar} {before before' : List InflexionId} {p p' : Paradigm} {h : Handle}
  {id : InflexionId}

namespace SameFrame

theorem symm (hs : SameFrame g g') : SameFrame g' g where
  recursLimit := hs.recursLimit.symm
  maxDerivations := hs.maxDerivations.symm
  frame := fun h => (hs.frame h).symm

theorem exists_paradigm (hs : SameFrame g g') (hp : g.paradigm? h = some p) :
    ∃ p', g'.paradigm? h = some p' ∧ p'.frame = p.frame := by
  have hframe := hs.frame h
  rw [hp, Option.map_some] at hframe
  exact Option.map_eq_some_iff.1 hframe

theorem isDerivational_eq (hs : SameFrame g g') (h : Handle) :
    g'.isDerivational h = g.isDerivational h := by
  have hany (q? : Option Paradigm) :
      q?.any (·.isDerivational) = (q?.map Paradigm.frame).any (·.isDerivational) := by
    cases q? <;> rfl
  rw [isDerivational, isDerivational, hany, hs.frame, ← hany]

/-- Which derivations a chain has is a matter of the paradigms that its inflexions live in. -/
theorem derivationsOf_concat (hs : SameFrame g g')
    (hder : g'.derivationsOf before' = g.derivationsOf before) {id' : InflexionId}
    (hid : id'.paradigm = id.paradigm) :
    g'.derivationsOf (before' ++ [id']) = g.derivationsOf (before ++ [id]) := by
  simp only [derivationsOf, List.map_append, List.filter_append] at hder ⊢
  simp only [hder, hid, List.map_cons, List.map_nil]
  congr 1
  exact List.filter_congr fun h _ => hs.isDerivational_eq h

/-- What a chain admits is a matter of its derivations. -/
theorem admits (hs : SameFrame g g') (hder : g'.derivationsOf before' = g.derivationsOf before)
    (hp : p'.frame = p.frame) (hadm : g.Admits before p) : g'.Admits before' p' := by
  have hused : ((g.derivationsOf before).filterMap g'.paradigm?).map Paradigm.frame =
      ((g.derivationsOf before).filterMap g.paradigm?).map Paradigm.frame := by
    rw [List.map_filterMap, List.map_filterMap]
    exact List.filterMap_congr fun h _ => hs.frame h
  intro hder'
  obtain ⟨hfewer, hinfo⟩ := hadm (Paradigm.isDerivational_eq_of_frame hp ▸ hder')
  rw [hder, hs.maxDerivations, hs.recursLimit]
  refine ⟨hfewer, fun info hinfo' => ?_⟩
  obtain ⟨hunrestricted, hrepeats⟩ := hinfo info (Paradigm.derivation_eq_of_frame hp ▸ hinfo')
  constructor
  · intro q' hq'
    have hmem : q'.frame ∈ ((g.derivationsOf before).filterMap g.paradigm?).map Paradigm.frame :=
      hused ▸ List.mem_map_of_mem hq'
    obtain ⟨q, hq, heq⟩ := List.mem_map.1 hmem
    have hrestricts := hunrestricted q hq
    rw [Paradigm.restricts, Paradigm.derivation_eq_of_frame heq] at hrestricts
    exact hrestricts
  · have hcount (qs : List Paradigm) :
        qs.countP (fun q => q.derivation.any (·.derivation == info.derivation)) =
          (qs.map Paradigm.frame).countP
            (fun q => q.derivation.any (·.derivation == info.derivation)) := by
      rw [List.countP_map]
      rfl
    rw [hcount, hused, ← hcount]
    exact hrepeats

/-- What a paradigm `LeadsTo` behind a chain is a matter of its links and of those behind them: with
one inflexion of a paradigm it leads to all that are no links. -/
theorem leadsTo (hs : SameFrame g g')
    (hlinks : ∀ h i, g.paradigms.Has h i → i.isLink = true → g'.paradigms.Has h i)
    (hder : g'.derivationsOf before' = g.derivationsOf before) {links : Nat}
    (hid : g.LeadsTo (g.Admits before) links h id) {n : Nat} {i : Inflexion}
    (hi : g'.inflexion? ⟨id.paradigm, n⟩ = some i) (hlink : i.isLink = false) :
    g'.LeadsTo (g'.Admits before') links h ⟨id.paradigm, n⟩ := by
  induction hid with
  -- The inflexion is one of the paradigm itself, which has the same frame in both grammars.
  | @own links k h p _ hp hadm _ _ =>
    obtain ⟨p', hp', hget⟩ := paradigm?_of_inflexion? hi
    obtain ⟨p'', hp'', hframe⟩ := hs.exists_paradigm hp
    obtain rfl : p' = p'' := Option.some.inj (hp'.symm.trans hp'')
    exact .own hp' (hs.admits hder hframe hadm) hget hlink
  -- The link is in both grammars, and leads on to the same paradigms.
  | @link links k h next p j id hp hadm hj hjlink hnext _ ih =>
    obtain ⟨p', hp', hframe⟩ := hs.exists_paradigm hp
    obtain ⟨q, hq, hmem⟩ := hlinks h j ⟨p, hp, List.mem_of_getElem? hj⟩ hjlink
    obtain rfl : p' = q := Option.some.inj (hp'.symm.trans hq)
    obtain ⟨k', hk'⟩ := List.getElem?_of_mem hmem
    exact .link hp' (hs.admits hder hframe hadm) hk' hjlink hnext (ih hi)

end SameFrame

/-! ## Widened grammars -/

/-- Where all inflexions may be joined (`closedInflexions?`), a chain is concluded by a single one
of them. -/
theorem Concludes.mem_of_closed {chain : List InflexionId} {i : Inflexion}
    {closed : List Inflexion} (hclosed : g.paradigms.closedInflexions? h = some closed)
    (hc : g.Concludes before h chain i) : i ∈ closed := by
  obtain ⟨p, hp, -, rfl, hopen⟩ := Paradigms.closedInflexions?_eq_some_iff.1 hclosed
  -- No link leads out of the paradigm.
  have hown {ok : Paradigm → Prop} {links : Nat} {id : InflexionId} {j : Inflexion}
      (hid : g.LeadsTo ok links h id) (hj : g.inflexion? id = some j) : j ∈ p.inflexions := by
    cases hid with
    | own hq _ hget _ =>
      obtain rfl : p = _ := Option.some.inj (hp.symm.trans hq)
      have := inflexion?_of_paradigm? hq hget
      obtain rfl : j = _ := Option.some.inj (hj.symm.trans this)
      exact List.mem_of_getElem? hget
    | link hq _ hget hlink _ _ =>
      obtain rfl : p = _ := Option.some.inj (hp.symm.trans hq)
      have := (hopen _ (List.mem_of_getElem? hget)).1
      exact absurd (this.symm.trans hlink) Bool.false_ne_true
  cases hc with
  | last hid hi _ => exact hown hid hi
  -- An inflexion of a closed paradigm does not continue.
  | next hid hi _ _ hjoin =>
    have := (hopen _ (hown hid hi)).2.1
    exact absurd (this.symm.trans (Inflexion.parts_of_join? hjoin).1) Bool.false_ne_true

/-- A grammar is another one with its inflexions joined. -/
structure IsWidening (g g' : Grammar) : Prop where
  paradigms : g.paradigms.IsWidening g'.paradigms
  boundaries : g.paradigms.All Inflexion.HasBoundary
  lexemes : g'.lexemes = g.lexemes
  recursLimit : g'.config.recursLimit = g.config.recursLimit
  maxDerivations : g'.config.maxDerivations = g.config.maxDerivations

namespace IsWidening

variable {start : Handle} {chain : List InflexionId} {i merged : Inflexion}

theorem sameFrame (hw : g.IsWidening g') : SameFrame g g' :=
  ⟨hw.recursLimit, hw.maxDerivations, hw.paradigms.frame⟩

/-- Inflexions that do not continue are kept, and with them all links. -/
theorem has_of_closed (hw : g.IsWidening g') (hi : g.paradigms.Has h i)
    (hend : i.continues = false) : g'.paradigms.Has h i := by
  rcases hw.paradigms.stands h i hi with hkept | ⟨hone, -⟩
  · exact hkept
  · have hcont : i.continues = true := Inflexion.continues_iff.2 (by omega)
    exact absurd (hend.symm.trans hcont) Bool.false_ne_true

/-- What a paradigm of the widened grammar has is its own, or a join that neither leads on nor is a
link. -/
theorem has_or_closed (hw : g.IsWidening g') (hi : g'.paradigms.Has h i) :
    g.paradigms.Has h i ∨ i.isLink = false ∧ i.continues = false := by
  cases hw.paradigms.unfolds h i hi with
  | own hown => exact .inl hown
  | @join _ _ _ j _ _ hj _ hone _ _ _ _ _ hclosed hjoin =>
    obtain ⟨p, hp, hmem⟩ := hj
    have hboundary := hw.boundaries h p hp j hmem
    exact .inr ⟨hboundary.isLink_of_join? hjoin, Inflexion.continues_of_join? hjoin hone hclosed⟩

theorem has_of_isLink (hw : g.IsWidening g') (h : Handle) (i : Inflexion)
    (hi : g.paradigms.Has h i) (hlink : i.isLink = true) : g'.paradigms.Has h i :=
  hw.has_of_closed hi (Inflexion.continues_of_isLink hlink)

theorem has_of_has_isLink (hw : g.IsWidening g') (h : Handle) (i : Inflexion)
    (hi : g'.paradigms.Has h i) (hlink : i.isLink = true) : g.paradigms.Has h i := by
  rcases hw.has_or_closed hi with hown | ⟨hproper, -⟩
  · exact hown
  · exact absurd (hproper.symm.trans hlink) Bool.false_ne_true

/-! ### Joined chains -/

/-- Every chain that `Concludes` in a grammar does so in the widened one: from an inflexion that is
gone on, a join stands for the rest of the chain. -/
theorem concludes (hw : g.IsWidening g') (hc : g.Concludes before start chain merged)
    (hder : g'.derivationsOf before' = g.derivationsOf before) :
    ∃ chain', g'.Concludes before' start chain' merged := by
  induction hc generalizing before' with
  -- An inflexion that ends the chain is not widened away.
  | @last before start links id i hid hi hend =>
    have hkept := hw.has_of_closed (Paradigms.has_iff.2 ⟨id.index, hi⟩) hend
    obtain ⟨n, hn⟩ := Paradigms.has_iff.1 hkept
    have hid' := hw.sameFrame.leadsTo hw.has_of_isLink hder hid hn (hid.isLink_eq_false hi)
    exact ⟨_, .last hid' hn hend⟩
  | @next before start next links id rest i child joined hid hi hnext hrest hjoin ih =>
    have hown : g.paradigms.Has id.paradigm i := Paradigms.has_iff.2 ⟨id.index, hi⟩
    have hconcat (n : Nat) :
        g'.derivationsOf (before' ++ [⟨id.paradigm, n⟩]) = g.derivationsOf (before ++ [id]) :=
      hw.sameFrame.derivationsOf_concat hder rfl
    have hleads {n : Nat} {j : Inflexion} (hj : g'.inflexion? ⟨id.paradigm, n⟩ = some j)
        (hlink : j.isLink = false) :
        g'.LeadsTo (g'.Admits before') links start ⟨id.paradigm, n⟩ :=
      hw.sameFrame.leadsTo hw.has_of_isLink hder hid hj hlink
    -- The inflexion was kept, or its joins stand in its place.
    rcases hw.paradigms.stands _ _ hown with hkept | ⟨hone, hall⟩
    · obtain ⟨n, hn⟩ := Paradigms.has_iff.1 hkept
      obtain ⟨rest', hrest'⟩ := ih (hconcat n)
      exact ⟨_, .next (hleads hn (hid.isLink_eq_false hi)) hn hnext hrest' hjoin⟩
    · obtain ⟨closed, hclosed, hjoins⟩ := hall next hnext
      -- What is behind the inflexion now is a single one, which has been joined to it.
      obtain ⟨rest', hrest'⟩ := ih (hconcat 0)
      have hchild := hrest'.mem_of_closed hclosed
      obtain ⟨-, -, -, -, hopen⟩ := Paradigms.closedInflexions?_eq_some_iff.1 hclosed
      obtain ⟨n, hn⟩ := Paradigms.has_iff.1 (hjoins child hchild joined hjoin)
      obtain ⟨p, hp, hmem⟩ := hown
      have hproper := (hw.boundaries _ p hp i hmem).isLink_of_join? hjoin
      have hend := Inflexion.continues_of_join? hjoin hone (hopen child hchild).2.1
      exact ⟨_, .last (hleads hn hproper) hn hend⟩

/-- What `Unfolds` gives stands for the chain of the inflexions that it is made of. -/
theorem exists_concludes_of_unfolds {links : Nat} (hi : g.paradigms.Unfolds h i)
    (hlink : i.isLink = false) (hend : i.continues = false)
    (hleads : ∀ n i, g.inflexion? ⟨h, n⟩ = some i → i.isLink = false →
      g.LeadsTo (g.Admits before) links start ⟨h, n⟩) :
    ∃ chain, g.Concludes before start chain i := by
  induction hi generalizing before start links with
  | own hi =>
    obtain ⟨n, hn⟩ := Paradigms.has_iff.1 hi
    exact ⟨_, .last (hleads n _ hn hlink) hn hend⟩
  | @join h next q i child joined hi hproper _ hnext hq hplain _ hchildLink hclosed hjoin ih =>
    obtain ⟨n, hn⟩ := Paradigms.has_iff.1 hi
    -- The paradigm of the inflexion joined is no derivation, and so is admitted everywhere.
    have hadm (chain : List InflexionId) : g.Admits chain q := fun hder =>
      absurd (hplain.symm.trans hder) Bool.false_ne_true
    have hhere (k : Nat) (j : Inflexion) (hj : g.inflexion? ⟨next, k⟩ = some j)
        (hjlink : j.isLink = false) :
        g.LeadsTo (g.Admits (before ++ [⟨h, n⟩])) 0 next ⟨next, k⟩ := by
      obtain ⟨q', hq', hget⟩ := paradigm?_of_inflexion? hj
      obtain rfl : q = q' := Option.some.inj (hq.symm.trans hq')
      exact .own hq (hadm _) hget hjlink
    obtain ⟨rest, hrest⟩ := ih hchildLink hclosed hhere
    exact ⟨_, .next (hleads n i hn hproper) hn hnext hrest hjoin⟩

/-- Every chain that `Concludes` in the widened grammar is one of joins, which stand for chains of
the other grammar. -/
theorem concludes_unwidened (hw : g.IsWidening g') (hc : g'.Concludes before' start chain merged)
    (hder : g'.derivationsOf before' = g.derivationsOf before) :
    ∃ chain', g.Concludes before start chain' merged := by
  have hs := hw.sameFrame.symm
  induction hc generalizing before with
  | @last before' start links id i hid hi hend =>
    have hunfolds := hw.paradigms.unfolds _ _ (Paradigms.has_iff.2 ⟨id.index, hi⟩)
    apply exists_concludes_of_unfolds hunfolds (hid.isLink_eq_false hi) hend
    intro n j hn hproper
    exact hs.leadsTo hw.has_of_has_isLink hder.symm hid hn hproper
  | @next before' start next links id rest i child joined hid hi hnext hrest hjoin ih =>
    have hunfolds := hw.paradigms.unfolds _ _ (Paradigms.has_iff.2 ⟨id.index, hi⟩)
    -- What still continues was not widened, and so is an inflexion of the other grammar.
    have hown := hunfolds.has_of_continues (Inflexion.parts_of_join? hjoin).1
    obtain ⟨n, hn⟩ := Paradigms.has_iff.1 hown
    have hconcat :
        g'.derivationsOf (before' ++ [id]) = g.derivationsOf (before ++ [⟨id.paradigm, n⟩]) :=
      hw.sameFrame.derivationsOf_concat hder rfl
    obtain ⟨rest', hrest'⟩ := ih hconcat
    have hid' := hs.leadsTo hw.has_of_has_isLink hder.symm hid hn (hid.isLink_eq_false hi)
    exact ⟨_, .next hid' hn hnext hrest' hjoin⟩

/-- A widened grammar builds the same wordforms. -/
theorem builds_iff (hw : g.IsWidening g') {w : Wordform} : g'.Builds w ↔ g.Builds w := by
  have hsub (id : SubLexemeId) : g'.subLexeme? id = g.subLexeme? id := by
    simp only [subLexeme?, lexeme?, hw.lexemes]
  have hbuild (id : SubLexemeId) (i : Inflexion) :
      g'.buildWordform? id i = g.buildWordform? id i := by
    simp only [buildWordform?, lexeme?, hw.lexemes]
  have hder : g'.derivationsOf [] = g.derivationsOf [] := rfl
  constructor
  · rintro ⟨id, sub, chain, i, hid, hc, hw'⟩
    obtain ⟨chain', hc'⟩ := hw.concludes_unwidened hc hder
    exact ⟨id, sub, chain', i, hsub id ▸ hid, hc', hbuild id i ▸ hw'⟩
  · rintro ⟨id, sub, chain, i, hid, hc, hw'⟩
    obtain ⟨chain', hc'⟩ := hw.concludes hc hder
    exact ⟨id, sub, chain', i, (hsub id).trans hid, hc', (hbuild id i).trans hw'⟩

end IsWidening

end Grammar

/-! ## Suffixing grammars -/

/-- What suffixes unfold to are suffixes. -/
theorem Paradigms.Unfolds.isSuffix {ps : Paradigms} {h : Handle} {j : Inflexion}
    (hsuffix : ∀ h i, ps.Has h i → i.isLink = false → i.IsSuffix) (hj : ps.Unfolds h j)
    (hlink : j.isLink = false) : j.IsSuffix := by
  induction hj with
  | own hi => exact hsuffix _ _ hi hlink
  | join hi hilink _ _ _ _ _ hchildLink hclosed hjoin ih =>
    exact (hsuffix _ _ hi hilink).join (ih hchildLink) hclosed hjoin

/-- If inflexions only follow stems, so do their joins. -/
theorem Grammar.IsWidening.suffixing {g g' : Grammar} (hw : g.IsWidening g') (hg : g.Suffixing) :
    g'.Suffixing where
  stem := by
    intro id sub hsub
    refine hg.stem id sub ?_
    rw [← hsub]
    simp only [subLexeme?, lexeme?, hw.lexemes]
  suffix := by
    intro id i hi hlink
    have hunfolds := hw.paradigms.unfolds id.paradigm i (Paradigms.has_iff.2 ⟨id.index, hi⟩)
    refine hunfolds.isSuffix (fun h i hi hlink => ?_) hlink
    obtain ⟨n, hn⟩ := Paradigms.has_iff.1 hi
    exact hg.suffix ⟨h, n⟩ i hn hlink

/-! ## Compiling without widening -/

namespace GrammarDraft

/-- The draft whose inflexions are not widened. -/
def unwidened (d : GrammarDraft) : GrammarDraft :=
  { d with config := { d.config with widenedParadigms := some 0 } }

/-- Lexemes are made with the names of paradigms only. -/
private theorem addLexemes_congr {ps ps' : Paradigms} (hnames : ps'.names = ps.names)
    (conversions : Table String StemConversion) (lexemes : Arena Lexeme)
    (entries : List LexemeEntry) :
    (addLexemes conversions ps' lexemes entries).1 =
      (addLexemes conversions ps lexemes entries).1 := by
  induction entries generalizing lexemes with
  | nil => rfl
  | cons e rest ih =>
    have hresolve : e.resolve ps' = e.resolve ps := by
      simp only [LexemeEntry.resolve, Paradigms.find?, hnames]
    have hmade : (Lexeme.ofEntry conversions ps' e).1 = (Lexeme.ofEntry conversions ps e).1 := by
      -- The entry is resolved and made in the same way.
      simp only [Lexeme.ofEntry, hresolve]
      split
      · rfl
      · split <;> rfl
    simp only [addLexemes]
    rw [hmade]
    exact ih _

/-- A draft that is compiled with widening gives a widening of what it gives without. -/
theorem isWidening_compile (d : GrammarDraft) :
    d.unwidened.compile.grammar.IsWidening d.compile.grammar where
  paradigms := Paradigms.isWidening_widen _ d.config
  boundaries := d.unwidened.all_compile Inflexion.isInvariant_hasBoundary
  lexemes := by
    apply addLexemes_congr
    exact (Paradigms.isWidening_widen _ d.config).names
  recursLimit := rfl
  maxDerivations := rfl

/-- Widening changes nothing in what a grammar builds. -/
theorem builds_compile_iff (d : GrammarDraft) {w : Wordform} :
    d.compile.grammar.Builds w ↔ d.unwidened.compile.grammar.Builds w :=
  d.isWidening_compile.builds_iff

end GrammarDraft

end Morphology
