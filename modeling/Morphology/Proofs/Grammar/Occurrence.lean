import Morphology.Proofs.Grammar.Spelling

/-!
# Parts of a chain in its wordform

Whatever the stem and the incorporated stems are, each part of the inflexions in a chain that has
characters of its own comes into the wordform with them.

## Main statements

* `Grammar.mem_parts_of_mergeChain?` — merging a chain keeps the parts of its inflexions
* `Grammar.mem_wf_of_buildWordform?` — a wordform has the characters of all parts
-/

namespace Morphology

/-! ## Merging -/

namespace Inflexion

theorem mem_splice_left {inserted parts : List FlexPart} {p : FlexPart}
    (hcont : parts.any (·.role = .continuation) = true) (hp : p ∈ inserted) :
    p ∈ splice inserted parts := by
  induction parts with
  | nil => simp at hcont
  | cons q parts ih =>
    rw [splice]
    split
    · exact List.mem_append_left _ hp
    · rename_i hrole
      apply List.mem_cons_of_mem
      apply ih
      simpa [hrole] using hcont

theorem mem_splice_right {inserted parts : List FlexPart} {p : FlexPart} (hp : p ∈ parts)
    (hrole : p.role ≠ .continuation) : p ∈ splice inserted parts := by
  induction parts with
  | nil => exact absurd hp List.not_mem_nil
  | cons q parts ih =>
    rw [splice]
    rcases List.mem_cons.1 hp with rfl | hp
    · rw [if_neg hrole]
      exact List.mem_cons_self ..
    · split
      · exact List.mem_append_right _ hp
      · exact List.mem_cons_of_mem _ (ih hp)

theorem mem_innerParts {i : Inflexion} {p : FlexPart} (hp : p ∈ i.parts)
    (hrole : p.role.isMarker = false) : p ∈ i.innerParts := by
  refine List.mem_filter.2 ⟨hp, ?_⟩
  cases hr : p.role <;> simp_all [Role.isMarker, Role.isBoundary]

end Inflexion

namespace Grammar

variable {g : Grammar} {i merged : Inflexion} {p : FlexPart}

/-- A link has stems only in the places for them. -/
def FillsPlaces (g : Grammar) (link : ChainLink) : Prop :=
  ∀ inc ∈ link.incorporated, ∀ i, g.inflexion? link.inflexion = some i →
    ∀ p, i.parts[inc.part]? = some p → p.role = .incorporation

/-- An incorporated stem takes the place of one part. -/
theorem getElem?_of_incorporate? {inc : Incorporated} {i' : Inflexion}
    (h : g.incorporate? i inc = some i') {n : Nat} (hn : n ≠ inc.part) :
    i'.parts[n]? = i.parts[n]? := by
  simp only [incorporate?, Option.bind_eq_bind, Option.bind_eq_some_iff] at h
  obtain ⟨lexeme, -, form, -, h⟩ := h
  split at h
  · obtain rfl := Option.some.inj h
    exact List.getElem?_set_ne (Ne.symm hn)
  · exact absurd h (by simp)

/-- Incorporated stems (`incorporate?`) leave the parts in other places as they are. -/
theorem getElem?_of_foldlM_incorporate? {incs : List Incorporated} {i' : Inflexion} {n : Nat}
    (hp : i.parts[n]? = some p) (hplaces : ∀ inc ∈ incs, n ≠ inc.part)
    (h : incs.foldlM g.incorporate? i = some i') : i'.parts[n]? = some p := by
  induction incs generalizing i with
  | nil =>
    obtain rfl : i = i' := by simpa using h
    exact hp
  | cons inc incs ih =>
    obtain ⟨hinc, hincs⟩ := List.forall_mem_cons.1 hplaces
    simp only [List.foldlM_cons, Option.bind_eq_bind, Option.bind_eq_some_iff] at h
    obtain ⟨j, hj, h⟩ := h
    exact ih ((getElem?_of_incorporate? hj hinc).trans hp) hincs h

/-- A part that is no place for a stem stays when `filled?` fills the places. -/
theorem mem_parts_of_filled? {link : ChainLink} (hplaces : g.FillsPlaces link)
    (hi : g.inflexion? link.inflexion = some i) (hp : p ∈ i.parts) (hrole : p.role.isMarker = false)
    (h : g.filled? link = some merged) : p ∈ merged.parts := by
  simp only [filled?, hi, Option.bind_eq_bind, Option.bind_some] at h
  obtain ⟨n, hn⟩ := List.getElem?_of_mem hp
  apply List.mem_of_getElem?
  apply getElem?_of_foldlM_incorporate? hn ?_ h
  -- What is filled is a place for a stem, which this part is not.
  rintro inc hinc rfl
  have := hplaces inc hinc i hi p hn
  rw [this] at hrole
  exact Bool.false_ne_true hrole.symm

/-- Merging a chain (`mergeChain?`) keeps the parts of its inflexions, but for the markers. -/
theorem mem_parts_of_mergeChain? {links : List ChainLink} {link : ChainLink} (hlink : link ∈ links)
    (hplaces : ∀ link ∈ links, g.FillsPlaces link) (hi : g.inflexion? link.inflexion = some i)
    (hp : p ∈ i.parts) (hrole : p.role.isMarker = false)
    (h : g.mergeChain? links = some merged) : p ∈ merged.parts := by
  induction links generalizing merged with
  | nil => exact absurd hlink List.not_mem_nil
  | cons first rest ih =>
    obtain ⟨hfirst, hrest⟩ := List.forall_mem_cons.1 hplaces
    cases rest with
    | nil =>
      obtain rfl := List.mem_singleton.1 hlink
      exact mem_parts_of_filled? hfirst hi hp hrole h
    | cons next rest =>
      simp only [mergeChain?, Option.bind_eq_bind, Option.bind_eq_some_iff] at h
      obtain ⟨child, hchild, j, hj, hjoin⟩ := h
      obtain ⟨hcont, hparts, -⟩ := Inflexion.parts_of_join? hjoin
      rw [hparts]
      -- The part is one of the enclosing inflexion, or of the chain put into it.
      rcases List.mem_cons.1 hlink with rfl | hlink
      · have hcontinuation : p.role ≠ .continuation := by
          intro heq
          rw [heq] at hrole
          exact Bool.false_ne_true hrole.symm
        exact Inflexion.mem_splice_right (mem_parts_of_filled? hfirst hi hp hrole hj) hcontinuation
      · have hchild := ih hlink hrest hchild
        exact Inflexion.mem_splice_left hcont (Inflexion.mem_innerParts hchild hrole)

end Grammar

/-! ## Weaving -/

/-- Nothing that is woven is undone. -/
theorem mem_wf_weave {c : Char} (stemGloss : String) {w : Woven} (hc : c ∈ w.wf) (used : Nat)
    (atFront : Bool) (side : Side) (chunks : List Chunk) (parts : List FlexPart) :
    c ∈ (weave stemGloss w used atFront side chunks parts).wf := by
  -- Whether a chunk or a part comes next, it is put behind what there is.
  have htext (w : Woven) (hc : c ∈ w.wf) (s : List Char) : c ∈ (w.addText stemGloss s).wf :=
    List.mem_append_left _ hc
  have hpart (w : Woven) (hc : c ∈ w.wf) (p : FlexPart) :
      c ∈ (if p.role.isBoundary = true then w else w.addPart p).wf := by
    split
    · exact hc
    · rw [Woven.wf_addPart]
      exact List.mem_append_left _ hc
  fun_induction weave stemGloss w used atFront side chunks parts with
  | case1 => exact hc
  | case2 _ _ _ _ _ ih => exact ih hc
  | case3 _ _ _ _ _ _ ih => exact ih (htext _ hc _)
  | case4 _ _ _ _ ih => exact ih hc
  | case5 _ _ _ _ _ ih => exact ih (htext _ hc _)
  | case6 _ _ _ _ _ ih => exact ih (hpart _ hc _)
  | case7 _ _ _ _ _ _ ih => exact ih (hpart _ hc _)

/-- Every part but a boundary is woven in. -/
theorem mem_wf_weave_of_mem {c : Char} {p : FlexPart} (stemGloss : String) (w : Woven) (used : Nat)
    (atFront : Bool) (side : Side) (chunks : List Chunk) {parts : List FlexPart} (hp : p ∈ parts)
    (hrole : p.role.isBoundary = false) (hc : c ∈ p.surface) :
    c ∈ (weave stemGloss w used atFront side chunks parts).wf := by
  have hpart (w : Woven) : c ∈ (if p.role.isBoundary = true then w else w.addPart p).wf := by
    rw [if_neg (by simp [hrole]), Woven.wf_addPart]
    exact List.mem_append_right _ hc
  fun_induction weave stemGloss w used atFront side chunks parts with
  | case1 => exact absurd hp List.not_mem_nil
  | case2 _ _ _ _ _ ih => exact ih hp
  | case3 _ _ _ _ _ _ ih => exact ih hp
  | case4 _ _ _ _ ih => exact absurd hp List.not_mem_nil
  | case5 _ _ _ _ _ ih => exact absurd hp List.not_mem_nil
  | case6 w used atFront q parts ih =>
    -- A part that is woven in stays, whatever comes behind it.
    rcases List.mem_cons.1 hp with rfl | hp
    · exact mem_wf_weave stemGloss (hpart w) _ _ _ _ _
    · exact ih hp
  | case7 w used atFront chunks q parts ih =>
    rcases List.mem_cons.1 hp with rfl | hp
    · exact mem_wf_weave stemGloss (hpart w) _ _ _ _ _
    · exact ih hp

/-- A wordform that `buildWordform?` makes has the characters of all parts of its inflexion but
boundaries. -/
theorem Grammar.mem_wf_of_buildWordform? {g : Grammar} {id : SubLexemeId} {i : Inflexion}
    {w : Wordform} (h : g.buildWordform? id i = some w) {p : FlexPart} (hp : p ∈ i.parts)
    (hrole : p.role.isBoundary = false) {c : Char} (hc : c ∈ p.surface) : c ∈ w.wf.toList := by
  simp only [buildWordform?, Option.bind_eq_bind, Option.bind_eq_some_iff] at h
  obtain ⟨lexeme, -, sub, -, joined, hjoined, hw⟩ := h
  have hwf : w.wf = joined.wf := by
    rw [← Option.some.inj hw]
  unfold Inflexion.fit? at hjoined
  split at hjoined
  · rw [hwf, ← Option.some.inj hjoined, joinStemFlex, Woven.finish, String.toList_ofList]
    exact mem_wf_weave_of_mem _ _ _ _ _ _ hp hrole hc
  · exact absurd hjoined (by simp)

end Morphology
