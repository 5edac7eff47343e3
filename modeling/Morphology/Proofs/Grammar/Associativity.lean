import Morphology.Grammar.Expansion
import Morphology.Proofs.Grammar.Joins

/-!
# Joining is associative

A chain of inflexions merges into one, each inflexion taking the next into its continuation.  Where
the merging begins makes no difference: at the front, at the back or in the middle, it comes to the
same inflexion but for the flex that messages show.

## Main definitions

* `Inflexion.AgreesWith` — two inflexions that differ in nothing but their flex
* `Inflexion.joinFront?`, `Inflexion.joinBack?` — a chain merged from the front, and from the back
* `Inflexion.Merges` — a chain merged in any order

## Main statements

* `Inflexion.join?_assoc` — joining two inflexions to a third, in either order
* `Inflexion.Merges.agreesWith_joinBack?` — all ways of merging a chain agree
* `Inflexion.joining_associative` — the same for chains of the search and for widened inflexions
-/

namespace Morphology

/-- Tags in a row can be joined in either order. -/
theorem joinTags_assoc (a b c : String) :
    joinTags (joinTags a b) c = joinTags a (joinTags b c) := by
  by_cases ha : a = "" <;> by_cases hb : b = "" <;> by_cases hc : c = "" <;>
    simp [joinTags, ha, hb, hc, String.append_assoc]

namespace Inflexion

variable {i i' child child' joined joined' : Inflexion}

/-- The slots that three restrictions leave do not depend on which two are met first. -/
theorem meetStemNums_assoc (ls ms ns : Option (List Nat)) :
    meetStemNums (meetStemNums ls ms) ns = meetStemNums ls (meetStemNums ms ns) := by
  cases ls with
  | none => rfl
  | some ls =>
    cases ms with
    | none => rfl
    | some ms =>
      cases ns with
      | none => rfl
      | some ns =>
        -- A slot is left just if all three have it.
        have hboth : (ms.filter ns.contains).contains =
            fun n => ns.contains n && ms.contains n := by
          funext n
          rw [Bool.eq_iff_iff]
          simp [and_comm]
        simp only [meetStemNums]
        rw [hboth, List.filter_filter]

/-! ## Parts -/

theorem splice_append {front : List FlexPart} (h : front.any (·.role = .continuation) = true)
    (inserted back : List FlexPart) :
    splice inserted (front ++ back) = splice inserted front ++ back := by
  induction front with
  | nil => simp at h
  | cons p front ih =>
    rw [List.cons_append, splice, splice]
    split
    · rw [List.append_assoc]
    · -- The continuation lies further behind.
      rename_i hrole
      rw [ih (by simpa [hrole] using h), List.cons_append]

/-- The first continuation of what is spliced in is the first of all. -/
theorem splice_splice {middle : List FlexPart} (h : middle.any (·.role = .continuation) = true)
    (inserted parts : List FlexPart) :
    splice inserted (splice middle parts) = splice (splice inserted middle) parts := by
  induction parts with
  | nil => rfl
  | cons p parts ih =>
    by_cases hrole : p.role = .continuation
    · rw [splice, splice, if_pos hrole, if_pos hrole, splice_append h]
    · rw [splice, splice, if_neg hrole, if_neg hrole, splice, if_neg hrole, ih]

/-- A continuation is an inner part, and what is spliced in for it is kept if it is. -/
theorem filter_splice {keep : FlexPart → Bool} (hkeep : ∀ p, p.role = .continuation → keep p = true)
    {inserted : List FlexPart} (hinserted : ∀ p ∈ inserted, keep p = true) (parts : List FlexPart) :
    (splice inserted parts).filter keep = splice inserted (parts.filter keep) := by
  induction parts with
  | nil => rfl
  | cons p parts ih =>
    -- The continuation itself is kept, and so is all that takes its place.
    by_cases hrole : p.role = .continuation
    · rw [splice, if_pos hrole, List.filter_append, List.filter_eq_self.2 hinserted,
        List.filter_cons_of_pos (hkeep p hrole), splice, if_pos hrole]
    · rw [splice, if_neg hrole, List.filter_cons, List.filter_cons]
      split
      · rw [splice, if_neg hrole, ih]
      · exact ih

theorem any_continuation_innerParts (i : Inflexion) :
    i.innerParts.any (·.role = .continuation) = i.continues := by
  unfold innerParts continues
  rw [List.any_filter]
  congr 1
  funext p
  cases hr : p.role <;> simp [Role.isBoundary]

/-! ## Joins -/

/-- What an inflexion is after another one is joined to it, but for its flex. -/
structure IsJoin (i child joined : Inflexion) : Prop where
  parts : joined.parts = splice child.innerParts i.parts
  gramm : joined.gramm =
    if child.replaceGrammar then child.gramm else joinTags i.gramm child.gramm
  stemNums : joined.stemNums = meetStemNums i.stemNums child.stemNums
  tests : joined.tests = i.tests ++ child.tests
  lemmaChanger : joined.lemmaChanger = child.lemmaChanger.orElse fun _ => i.lemmaChanger
  position : joined.position = child.position
  subsequent : joined.subsequent = child.subsequent
  replaceGrammar : joined.replaceGrammar = (i.replaceGrammar || child.replaceGrammar)
  keepOtherData : joined.keepOtherData = (i.keepOtherData && child.keepOtherData)
  startWithSelf : joined.startWithSelf = i.startWithSelf

theorem isJoin_of_join? (h : i.join? child = some joined) : IsJoin i child joined := by
  unfold join? at h
  split at h
  · obtain rfl := Option.some.inj h
    constructor <;> rfl
  · exact absurd h (by simp)

theorem exists_join? (h : i.continues = true) (child : Inflexion) :
    ∃ joined, i.join? child = some joined := by
  unfold join?
  exact ⟨_, if_pos h⟩

/-- A join continues where the inflexion joined to it does. -/
theorem continues_of_join?_of_continues (h : i.join? child = some joined)
    (hchild : child.continues = true) : joined.continues = true := by
  have hcount := continuations_of_join? h
  have hi := continues_iff.1 (parts_of_join? h).1
  have hchild := continues_iff.1 hchild
  rw [continues_iff]
  omega

/-- The boundaries of both inflexions are left out where their join is joined to a third. -/
theorem IsJoin.innerParts (h : IsJoin i child joined) :
    joined.innerParts = splice child.innerParts i.innerParts := by
  unfold Inflexion.innerParts
  rw [h.parts]
  apply filter_splice
  · intro p hrole
    rw [hrole]
    rfl
  · exact fun p hp => (List.mem_filter.1 hp).2

/-! ## Agreement -/

/-- The inflexions differ in nothing but the flex that messages show. -/
structure AgreesWith (i j : Inflexion) : Prop where
  parts : i.parts = j.parts
  gramm : i.gramm = j.gramm
  stemNums : i.stemNums = j.stemNums
  tests : i.tests = j.tests
  lemmaChanger : i.lemmaChanger = j.lemmaChanger
  position : i.position = j.position
  subsequent : i.subsequent = j.subsequent
  replaceGrammar : i.replaceGrammar = j.replaceGrammar
  keepOtherData : i.keepOtherData = j.keepOtherData
  startWithSelf : i.startWithSelf = j.startWithSelf

theorem AgreesWith.refl (i : Inflexion) : i.AgreesWith i := by
  constructor <;> rfl

theorem AgreesWith.trans {j k : Inflexion} (h : i.AgreesWith j) (h' : j.AgreesWith k) :
    i.AgreesWith k where
  parts := h.parts.trans h'.parts
  gramm := h.gramm.trans h'.gramm
  stemNums := h.stemNums.trans h'.stemNums
  tests := h.tests.trans h'.tests
  lemmaChanger := h.lemmaChanger.trans h'.lemmaChanger
  position := h.position.trans h'.position
  subsequent := h.subsequent.trans h'.subsequent
  replaceGrammar := h.replaceGrammar.trans h'.replaceGrammar
  keepOtherData := h.keepOtherData.trans h'.keepOtherData
  startWithSelf := h.startWithSelf.trans h'.startWithSelf

/-- No field of a join depends on the flexes but its flex. -/
theorem AgreesWith.join (hi : i.AgreesWith i') (hchild : child.AgreesWith child')
    (h : i.join? child = some joined) (h' : i'.join? child' = some joined') :
    joined.AgreesWith joined' := by
  have hjoin := isJoin_of_join? h
  have hjoin' := isJoin_of_join? h'
  constructor
  · rw [hjoin.parts, hjoin'.parts, innerParts, innerParts, hi.parts, hchild.parts]
  · rw [hjoin.gramm, hjoin'.gramm, hi.gramm, hchild.gramm, hchild.replaceGrammar]
  · rw [hjoin.stemNums, hjoin'.stemNums, hi.stemNums, hchild.stemNums]
  · rw [hjoin.tests, hjoin'.tests, hi.tests, hchild.tests]
  · rw [hjoin.lemmaChanger, hjoin'.lemmaChanger, hi.lemmaChanger, hchild.lemmaChanger]
  · rw [hjoin.position, hjoin'.position, hchild.position]
  · rw [hjoin.subsequent, hjoin'.subsequent, hchild.subsequent]
  · rw [hjoin.replaceGrammar, hjoin'.replaceGrammar, hi.replaceGrammar, hchild.replaceGrammar]
  · rw [hjoin.keepOtherData, hjoin'.keepOtherData, hi.keepOtherData, hchild.keepOtherData]
  · rw [hjoin.startWithSelf, hjoin'.startWithSelf, hi.startWithSelf]

/-! ## Three inflexions -/

/-- Each field of a join is combined by a rule that is associative; that of the tags is so together
with the flag for replacing them. -/
theorem IsJoin.agreesWith {a b c ab bc left right : Inflexion} (hab : IsJoin a b ab)
    (hleft : IsJoin ab c left) (hbc : IsJoin b c bc) (hright : IsJoin a bc right)
    (hb : b.continues = true) : left.AgreesWith right := by
  constructor
  · -- Behind the middle inflexion's own parts stands its continuation, into which the third is
    -- spliced.
    rw [hleft.parts, hab.parts, hright.parts, hbc.innerParts,
      splice_splice ((any_continuation_innerParts b).trans hb)]
  · -- Who replaces the tags decides; the third one does in either order, or else the second.
    rw [hleft.gramm, hab.gramm, hright.gramm, hbc.gramm, hbc.replaceGrammar]
    cases b.replaceGrammar <;> cases c.replaceGrammar <;> simp [joinTags_assoc]
  · rw [hleft.stemNums, hab.stemNums, hright.stemNums, hbc.stemNums, meetStemNums_assoc]
  · rw [hleft.tests, hab.tests, hright.tests, hbc.tests, List.append_assoc]
  · rw [hleft.lemmaChanger, hab.lemmaChanger, hright.lemmaChanger, hbc.lemmaChanger]
    -- The lemma changer is that of the last inflexion that has one.
    cases c.lemmaChanger <;> rfl
  · rw [hleft.position, hright.position, hbc.position]
  · rw [hleft.subsequent, hright.subsequent, hbc.subsequent]
  · rw [hleft.replaceGrammar, hab.replaceGrammar, hright.replaceGrammar, hbc.replaceGrammar,
      Bool.or_assoc]
  · rw [hleft.keepOtherData, hab.keepOtherData, hright.keepOtherData, hbc.keepOtherData,
      Bool.and_assoc]
  · rw [hleft.startWithSelf, hab.startWithSelf, hright.startWithSelf]

/-- An inflexion joined to a join agrees with what the first one makes of the other two joined. -/
theorem join?_assoc {a b c ab bc : Inflexion} (hab : a.join? b = some ab)
    (hbc : b.join? c = some bc) :
    ∃ left right, ab.join? c = some left ∧ a.join? bc = some right ∧ left.AgreesWith right := by
  have hb := (parts_of_join? hbc).1
  obtain ⟨left, hleft⟩ := exists_join? (continues_of_join?_of_continues hab hb) c
  obtain ⟨right, hright⟩ := exists_join? (parts_of_join? hab).1 bc
  exact ⟨left, right, hleft, hright, (isJoin_of_join? hab).agreesWith (isJoin_of_join? hleft)
    (isJoin_of_join? hbc) (isJoin_of_join? hright) hb⟩

/-! ## Chains -/

/-- A chain merged from the front: each inflexion is joined to what those before it have become. -/
def joinFront? : List Inflexion → Option Inflexion
  | [] => none
  | i :: rest => rest.foldlM join? i

/-- A chain merged from the back: each inflexion takes the rest of the chain, merged, into its
continuation. -/
def joinBack? : List Inflexion → Option Inflexion
  | [] => none
  | [i] => some i
  | i :: next :: rest => (joinBack? (next :: rest)).bind i.join?

/-- A chain merged in any order: two pieces of it are merged, and then joined. -/
inductive Merges : List Inflexion → Inflexion → Prop
  | single (i : Inflexion) : Merges [i] i
  | join {front back : List Inflexion} {i child joined : Inflexion} :
    Merges front i → Merges back child → i.join? child = some joined →
      Merges (front ++ back) joined

theorem Merges.ne_nil {chain : List Inflexion} (h : Merges chain i) : chain ≠ [] := by
  induction h with
  | single i => simp
  | join _ _ _ ih _ => simp [ih]

/-- What the front and the back of a chain are merged into joins to what the chain is merged
into. -/
theorem exists_join?_joinBack? {front back : List Inflexion} {a b : Inflexion}
    (hcont : ∀ i ∈ front, i.continues = true) (hfront : joinBack? front = some a)
    (hback : joinBack? back = some b) :
    ∃ joined whole, a.join? b = some joined ∧ joinBack? (front ++ back) = some whole ∧
      joined.AgreesWith whole := by
  -- There is something at the back.
  obtain ⟨next', rest', rfl⟩ : ∃ next' rest', back = next' :: rest' := by
    cases back with
    | nil => exact absurd hback (by simp [joinBack?])
    | cons next' rest' => exact ⟨next', rest', rfl⟩
  induction front generalizing a with
  | nil => exact absurd hfront (by simp [joinBack?])
  | cons i front ih =>
    obtain ⟨hi, hrest⟩ := List.forall_mem_cons.1 hcont
    cases front with
    -- A single inflexion in front takes the merged back into its continuation.
    | nil =>
      obtain rfl : i = a := Option.some.inj hfront
      obtain ⟨joined, hjoined⟩ := exists_join? hi b
      refine ⟨joined, joined, hjoined, ?_, .refl joined⟩
      rw [List.singleton_append, joinBack?, hback, Option.bind_some, hjoined]
    | cons next rest =>
      obtain ⟨a', ha', hjoin⟩ := Option.bind_eq_some_iff.1 hfront
      obtain ⟨c, tail, hc, htail, hagree⟩ := ih hrest ha'
      -- Joining the back to the merged front is joining it to the merged rest of the front first.
      obtain ⟨left, right, hleft, hright, hassoc⟩ := join?_assoc hjoin hc
      obtain ⟨whole, hwhole⟩ := exists_join? hi tail
      refine ⟨left, whole, hleft, ?_, hassoc.trans ((AgreesWith.refl i).join hagree hright hwhole)⟩
      rw [List.cons_append, List.cons_append, joinBack?, ← List.cons_append, htail,
        Option.bind_some, hwhole]

/-- In whatever order a chain is merged, it comes to what merging from the back comes to. -/
theorem Merges.agreesWith_joinBack? {chain : List Inflexion} (h : Merges chain i)
    (hcont : ∀ j ∈ chain.dropLast, j.continues = true) :
    ∃ whole, joinBack? chain = some whole ∧ i.AgreesWith whole := by
  induction h with
  | single i => exact ⟨i, rfl, .refl i⟩
  | join hfront hback hjoin ihfront ihback =>
    -- All of the front continue, and of the back all but the last.
    rw [List.dropLast_append_of_ne_nil hback.ne_nil] at hcont
    obtain ⟨hfrontCont, hbackCont⟩ := List.forall_mem_append.1 hcont
    obtain ⟨a, ha, hia⟩ := ihfront fun j hj => hfrontCont j (List.dropLast_subset _ hj)
    obtain ⟨b, hb, hcb⟩ := ihback hbackCont
    -- The merged front and the merged back agree with what joins to the merged chain.
    obtain ⟨joined, whole, hjoined, hwhole, hagree⟩ := exists_join?_joinBack? hfrontCont ha hb
    exact ⟨whole, hwhole, (hia.join hcb hjoin hjoined).trans hagree⟩

/-- Merging from the front goes on to the end of the chain, and is one of the orders. -/
theorem exists_foldlM_join? {front rest : List Inflexion} (hi : Merges front i)
    (hcont : rest ≠ [] → i.continues = true)
    (hrest : ∀ j ∈ rest.dropLast, j.continues = true) :
    ∃ joined, rest.foldlM join? i = some joined ∧ Merges (front ++ rest) joined := by
  induction rest generalizing front i with
  | nil => exact ⟨i, rfl, by rwa [List.append_nil]⟩
  | cons next rest ih =>
    obtain ⟨j, hj⟩ := exists_join? (hcont (List.cons_ne_nil _ _)) next
    -- What is merged so far continues, since the inflexion just joined does.
    have hmerges : Merges (front ++ [next]) j := hi.join (.single next) hj
    obtain ⟨joined, hjoined, hall⟩ := ih hmerges
      (fun hne => by
        apply continues_of_join?_of_continues hj
        apply hrest
        rw [List.dropLast_cons_of_ne_nil hne]
        exact List.mem_cons_self ..)
      (fun k hk => by
        apply hrest
        cases rest with
        | nil => exact absurd hk List.not_mem_nil
        | cons => exact List.mem_cons_of_mem _ hk)
    refine ⟨joined, ?_, by rwa [List.append_assoc] at hall⟩
    rw [List.foldlM_cons, hj]
    exact hjoined

theorem exists_joinFront? {chain : List Inflexion} (hne : chain ≠ [])
    (hcont : ∀ j ∈ chain.dropLast, j.continues = true) :
    ∃ joined, joinFront? chain = some joined ∧ Merges chain joined := by
  cases chain with
  | nil => exact absurd rfl hne
  | cons i rest =>
    apply exists_foldlM_join? (.single i)
    · intro hrest
      apply hcont
      rw [List.dropLast_cons_of_ne_nil hrest]
      exact List.mem_cons_self ..
    · intro j hj
      apply hcont
      cases rest with
      | nil => exact absurd hj List.not_mem_nil
      | cons => exact List.mem_cons_of_mem _ hj

/-! ## Chains of the search, and widened inflexions -/

/-- The search merges the inflexions of a chain, stems incorporated, from the back. -/
theorem mergeChain?_eq_joinBack? {g : Grammar} {links : List ChainLink} {chain : List Inflexion}
    (h : links.mapM g.filled? = some chain) : g.mergeChain? links = joinBack? chain := by
  induction links generalizing chain with
  | nil =>
    obtain rfl : [] = chain := by simpa using h
    rfl
  | cons link links ih =>
    simp only [List.mapM_cons, Option.bind_eq_bind, Option.bind_eq_some_iff] at h
    obtain ⟨i, hi, rest, hrest, heq⟩ := h
    obtain rfl : i :: rest = chain := Option.some.inj heq
    -- The last inflexion is taken as it is.
    cases links with
    | nil =>
      obtain rfl : [] = rest := by simpa using hrest
      exact hi
    | cons next links =>
      cases rest with
      | nil => exact absurd (congrArg List.length (map_eq_of_mapM hrest)) (by simp)
      | cons j rest =>
        rw [Grammar.mergeChain?, joinBack?, ih hrest]
        cases joinBack? (j :: rest) with
        | none => rfl
        | some child => simp [hi]

/-- A widened inflexion is what two inflexions of the grammar merge into. -/
theorem merges_of_widenInflexion? {ps : Paradigms} {config : GrammarConfig}
    {made : List Inflexion} (h : ps.widenInflexion? config i = some made) :
    ∀ joined ∈ made, ∃ child, Merges [i, child] joined := by
  intro joined hjoined
  unfold Paradigms.widenInflexion? at h
  split at h
  · -- A widened inflexion is a join with a child.
    obtain ⟨children, -, rfl⟩ := Option.map_eq_some_iff.1 h
    obtain ⟨child, -, hjoin⟩ := List.mem_filterMap.1 hjoined
    exact ⟨child, .join (.single i) (.single child) hjoin⟩
  · exact absurd h (by simp)

/-- **Joining inflexions is associative.**  Two joins agree in whichever order they are made, and so
a chain in which every inflexion but the last continues comes to the same inflexion whether it is
merged from the front (`joinFront?`), from the back (`joinBack?`), as the search does in
`Grammar.mergeChain?`, or from anywhere else (`Merges`), a part of it having been merged by
`Paradigms.widenInflexion?`. -/
theorem joining_associative :
    (∀ a b c : Inflexion, a.continues = true → b.continues = true →
      ∃ ab left bc right, a.join? b = some ab ∧ ab.join? c = some left ∧
        b.join? c = some bc ∧ a.join? bc = some right ∧ left.AgreesWith right) ∧
    (∀ chain : List Inflexion, chain ≠ [] → (∀ i ∈ chain.dropLast, i.continues = true) →
      ∃ front back, joinFront? chain = some front ∧ joinBack? chain = some back ∧
        front.AgreesWith back ∧ ∀ i, Merges chain i → i.AgreesWith back) ∧
    (∀ (g : Grammar) (links : List ChainLink) (chain : List Inflexion),
      links.mapM g.filled? = some chain → g.mergeChain? links = joinBack? chain) ∧
    (∀ (ps : Paradigms) (config : GrammarConfig) (i : Inflexion) (made : List Inflexion),
      ps.widenInflexion? config i = some made →
        ∀ joined ∈ made, ∃ child, Merges [i, child] joined) := by
  refine ⟨?_, ?_, ?_, ?_⟩
  · intro a b c ha hb
    obtain ⟨ab, hab⟩ := exists_join? ha b
    obtain ⟨bc, hbc⟩ := exists_join? hb c
    obtain ⟨left, right, hleft, hright, hagree⟩ := join?_assoc hab hbc
    exact ⟨ab, left, bc, right, hab, hleft, hbc, hright, hagree⟩
  · intro chain hne hcont
    obtain ⟨front, hfront, hmerges⟩ := exists_joinFront? hne hcont
    obtain ⟨back, hback, hagree⟩ := hmerges.agreesWith_joinBack? hcont
    refine ⟨front, back, hfront, hback, hagree, fun i hi => ?_⟩
    -- Whatever order it is merged in, it agrees with the merge from the back.
    obtain ⟨whole, hwhole, hi⟩ := hi.agreesWith_joinBack? hcont
    obtain rfl := Option.some.inj (hwhole.symm.trans hback)
    exact hi
  · exact fun g links chain => mergeChain?_eq_joinBack?
  · exact fun ps config i made => merges_of_widenInflexion?

/-- Three inflexions, the second of which replaces the tags of the first, and with the third leaves
one slot of the stem. -/
def sampleChain : List Inflexion :=
  [ofParts ".er<.>" "cmp" [.marker .stem, .affix "er".toList .affix, .marker .continuation],
    { ofParts ".<.>" "def" [.marker .stem, .marker .continuation] with
      stemNums := some [0, 1]
      replaceGrammar := true },
    { ofParts ".s" "pl" [.marker .stem, .affix "s".toList .affix] with stemNums := some [1, 2] }]

theorem joining_associative_sampleChain :
    (∀ i ∈ sampleChain.dropLast, i.continues = true) ∧
    ∃ front back, joinFront? sampleChain = some front ∧ joinBack? sampleChain = some back ∧
      front.AgreesWith back ∧ back.gramm = "def,pl" ∧ back.stemNums = some [1] := by
  have hcont : ∀ i ∈ sampleChain.dropLast, i.continues = true := by
    simp only [sampleChain, List.dropLast_cons_cons, List.dropLast_singleton, List.forall_mem_cons]
    exact ⟨by decide, by decide, List.forall_mem_nil _⟩
  obtain ⟨front, back, hfront, hback, hagree, -⟩ :=
    joining_associative.2.1 sampleChain (List.cons_ne_nil _ _) hcont
  have hfields : (joinBack? sampleChain).map (fun i => (i.gramm, i.stemNums)) =
      some ("def,pl", some [1]) := by decide
  rw [hback] at hfields
  obtain ⟨hgramm, hstems⟩ := Prod.mk.inj (Option.some.inj hfields)
  exact ⟨hcont, front, back, hfront, hback, hagree, hgramm, hstems⟩

end Inflexion

end Morphology
