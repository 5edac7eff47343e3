import Morphology.Proofs.Pattern.Reading

/-!
# Anchored texts

A text that gets an anchor at either end is read as before, but for its outermost alternatives: the
caret becomes a part of the first one, and the dollar sign a part of the last.  Alternatives between
them have no anchor; the first has none behind it, and the last none in front.

## Main definitions

* `Draft.Anchored` — a group with a caret in front of it
* `Reading.Led` — a state of reading with a caret in front of the text
* `Reading.bottom` — the outermost group, which a text without switches leaves in its modes

## Main statements

* `Reading.exists_next?_of_led` — a token leads from a state with a caret in front to another
* `exists_outermost?_caret`, `outermost?_dollar` — what is read of a text with an anchor
* `modes_of_outermost?` — the modes at the end of a text without switches
* `Draft.Anchored.choices`, `Draft.choices_push_dollar` — the alternatives with an anchor
-/

namespace Morphology.Pattern

/-! ## Groups with a caret in front -/

/-- The part that a caret in front of a text is. -/
def Part.caret : Part := ⟨some (.assert .textStart), 0⟩

/-- The alternative of some parts, last first. -/
def Part.ofParts (ps : List Part) : Part :=
  ⟨some (Expr.sequence (ps.reverse.filterMap Part.expr)), Part.depthOfList ps⟩

/-- A group, and the same with a caret in front of its first alternative. -/
inductive Draft.Anchored : Draft → Draft → Prop
  | first (parts : List Part) (modes : Modes) :
      Anchored ⟨[], parts, modes⟩ ⟨[], parts ++ [.caret], modes⟩
  | later (others front parts : List Part) (modes : Modes) :
      Anchored ⟨others ++ [.ofParts front], parts, modes⟩
        ⟨others ++ [.ofParts (front ++ [.caret])], parts, modes⟩

theorem Draft.Anchored.modes {d d' : Draft} (h : d.Anchored d') : d.modes = d'.modes := by
  cases h with
  | _ => rfl

namespace Reading

/-- Open groups, the innermost one by itself, and the same with a caret in front of the text. -/
inductive LedFrom : Draft → List (Option Nat × Draft) → Draft → List (Option Nat × Draft) → Prop
  | outermost {d d' : Draft} (h : d.Anchored d') : LedFrom d [] d' []
  | inside {d d' : Draft} {outer outer' : List (Option Nat × Draft)} (index : Option Nat)
      (inside : Draft) (h : LedFrom d outer d' outer') :
      LedFrom inside ((index, d) :: outer) inside ((index, d') :: outer')

/-- A state of reading, and the same with a caret in front of the text. -/
structure Led (r r' : Reading) : Prop where
  drafts : LedFrom r.innermost r.outer r'.innermost r'.outer
  groups : r.groups = r'.groups
  names : r.names = r'.names

variable {r r' s s' : Reading} {t : Token} {ts : List Token} {d d' e : Draft}
  {outer outer' : List (Option Nat × Draft)}

theorem LedFrom.modes (h : LedFrom d outer d' outer') : d.modes = d'.modes := by
  cases h with
  | outermost h => exact h.modes
  | inside index d h => rfl

theorem anchored_push (h : d.Anchored d') (p : Part) : (d.push p).Anchored (d'.push p) := by
  cases h with
  | first parts modes => exact .first (p :: parts) modes
  | later others front parts modes => exact .later others front (p :: parts) modes

theorem LedFrom.push (h : LedFrom d outer d' outer') (p : Part) :
    LedFrom (d.push p) outer (d'.push p) outer' := by
  cases h with
  | outermost h => exact .outermost (anchored_push h p)
  | inside index d h => exact .inside index _ h

/-- The current alternative ends; if it is the first, the caret stays with it. -/
theorem LedFrom.bar (h : LedFrom d outer d' outer') :
    LedFrom { d with alternatives := d.current :: d.alternatives, parts := [] } outer
      { d' with alternatives := d'.current :: d'.alternatives, parts := [] } outer' := by
  cases h with
  | outermost h =>
    cases h with
    | first parts modes => exact .outermost (.later [] parts [] modes)
    | later others front parts modes =>
      exact .outermost (.later (.ofParts parts :: others) front [] modes)
  | inside index d h => exact .inside index _ h

theorem LedFrom.switch (h : LedFrom d outer d' outer') (s : Switches) :
    LedFrom { d with modes := d.modes.turn s, parts := ⟨none, 0⟩ :: d.parts } outer
      { d' with modes := d'.modes.turn s, parts := ⟨none, 0⟩ :: d'.parts } outer' := by
  cases h with
  | outermost h =>
    cases h with
    | first parts modes => exact .outermost (.first (_ :: parts) _)
    | later others front parts modes => exact .outermost (.later others front _ _)
  | inside index d h => exact .inside index _ h

/-- The last part is not the caret if it can be repeated without one. -/
theorem LedFrom.parts (h : LedFrom d outer d' outer') {p : Part} {before : List Part}
    (hparts : d.parts = p :: before) (q : Part) : ∃ before', d'.parts = p :: before' ∧
      LedFrom { d with parts := q :: before } outer { d' with parts := q :: before' } outer' := by
  cases h with
  | outermost h =>
    cases h with
    | first parts modes =>
      obtain rfl : parts = p :: before := hparts
      exact ⟨before ++ [Part.caret], rfl, .outermost (.first (q :: before) modes)⟩
    | later others front parts modes =>
      exact ⟨before, hparts, .outermost (.later others front (q :: before) modes)⟩
  | inside index d h => exact ⟨before, hparts, .inside index _ h⟩

theorem exists_open?_of_led {o : Opening} (h : Led r r') (hs : r.open? o = some s) :
    ∃ s', r'.open? o = some s' ∧ Led s s' := by
  have hmodes := h.drafts.modes
  unfold Reading.open? at hs ⊢
  split at hs
  · obtain rfl := Option.some.inj hs
    rw [← hmodes]
    exact ⟨_, rfl, .inside none _ h.drafts, h.groups, h.names⟩
  · dsimp only at hs ⊢
    -- The numbers and the names of groups do not depend on the caret.
    rw [← hmodes, ← h.groups, ← h.names]
    split at hs
    · obtain rfl := Option.some.inj hs
      exact ⟨_, rfl, .inside _ _ h.drafts, rfl, rfl⟩
    · split at hs
      · exact absurd hs nofun
      · obtain rfl := Option.some.inj hs
        rename_i hnew
        rw [if_neg hnew]
        exact ⟨_, rfl, .inside _ _ h.drafts, rfl, rfl⟩

/-- A group that ends is not the outermost one, and has no caret in it. -/
theorem exists_close?_of_led (h : Led r r') (hs : r.close? = some s) :
    ∃ s', r'.close? = some s' ∧ Led s s' := by
  obtain ⟨innermost, outer, groups, names⟩ := r
  obtain ⟨innermost', outer', groups', names'⟩ := r'
  obtain ⟨hdrafts, hgroups, hnames⟩ := h
  cases hdrafts with
  | outermost hanchored => exact absurd hs nofun
  | @inside around around' outer outer' index d hrest =>
    obtain ⟨part, hpart, rfl⟩ := Option.map_eq_some_iff.1 hs
    exact ⟨⟨around'.push part, outer', groups', names'⟩,
      Option.map_eq_some_iff.2 ⟨part, hpart, rfl⟩, hrest.push part, hgroups, hnames⟩

theorem exists_repeat?_of_led {greedy : Bool} {least : Nat} {most : Option Nat} (h : Led r r')
    (hs : r.repeat? greedy least most = some s) :
    ∃ s', r'.repeat? greedy least most = some s' ∧ Led s s' := by
  unfold Reading.repeat? at hs
  split at hs
  · rename_i p depth before hparts
    obtain ⟨part, hpart, rfl⟩ := Option.map_eq_some_iff.1 hs
    -- There is a part to repeat without the caret, so the caret is before it.
    obtain ⟨before', hparts', hdrafts⟩ := h.drafts.parts hparts part
    refine ⟨{ r' with innermost := { r'.innermost with parts := part :: before' } }, ?_, hdrafts,
      h.groups, h.names⟩
    simp only [Reading.repeat?, hparts', ← h.drafts.modes, hpart, Option.map_some]
  · exact absurd hs nofun

/-- A token leads from a state with a caret in front to another. -/
theorem exists_next?_of_led (h : Led r r') (hs : r.next? t = some s) :
    ∃ s', r'.next? t = some s' ∧ Led s s' := by
  have hmodes := h.drafts.modes
  unfold Reading.next? at hs ⊢
  split at hs
  · exact exists_open?_of_led h hs
  · exact exists_close?_of_led h hs
  · exact exists_repeat?_of_led h hs
  · obtain rfl := Option.some.inj hs
    exact ⟨_, rfl, h.drafts.bar, h.groups, h.names⟩
  · obtain rfl := Option.some.inj hs
    exact ⟨_, rfl, h.drafts.switch _, h.groups, h.names⟩
  · obtain ⟨p, hp, rfl⟩ := Option.map_eq_some_iff.1 hs
    rw [← hmodes, hp]
    exact ⟨_, rfl, h.drafts.push p, h.groups, h.names⟩

theorem exists_after?_of_led (h : Led r r') (hs : r.after? ts = some s) :
    ∃ s', r'.after? ts = some s' ∧ Led s s' := by
  induction ts generalizing r r' with
  | nil => exact ⟨r', rfl, Option.some.inj hs ▸ h⟩
  | cons t ts ih =>
    obtain ⟨q, hq, hrest⟩ := Option.bind_eq_some_iff.1 hs
    obtain ⟨q', hq', hled⟩ := exists_next?_of_led h hq
    obtain ⟨s', hs', hled⟩ := ih hled hrest
    exact ⟨s', Option.bind_eq_some_iff.2 ⟨q', hq', hs'⟩, hled⟩

theorem led_start : Led start { start with innermost := start.innermost.push .caret } where
  drafts := .outermost (.first [] default)
  groups := rfl
  names := rfl

/-! ## The switches behind a text -/

/-- The outermost of some open groups, which is the innermost one if there is no other. -/
def bottomFrom (innermost : Draft) : List (Option Nat × Draft) → Draft
  | [] => innermost
  | (_, around) :: outer => bottomFrom around outer

/-- The outermost group that is open. -/
def bottom (r : Reading) : Draft :=
  bottomFrom r.innermost r.outer

theorem modes_bottom_congr (houter : s.outer = r.outer)
    (hmodes : s.innermost.modes = r.innermost.modes) : s.bottom.modes = r.bottom.modes := by
  unfold bottom
  rw [houter]
  cases r.outer with
  | nil => exact hmodes
  | cons o outer => rfl

/-- Only switches change the modes of the outermost group. -/
theorem modes_bottom_of_next? (ht : ∀ switches, t ≠ .switch switches) (h : r.next? t = some s) :
    s.bottom.modes = r.bottom.modes := by
  obtain ⟨innermost, outer, groups, names⟩ := r
  unfold Reading.next? at h
  split at h
  · -- A group that begins comes on top of the others.
    unfold Reading.open? at h
    split at h
    · exact Option.some.inj h ▸ rfl
    · dsimp only at h
      split at h
      · exact Option.some.inj h ▸ rfl
      · split at h
        · exact absurd h nofun
        · exact Option.some.inj h ▸ rfl
  · -- A group that ends is one more part of the group around it.
    unfold Reading.close? at h
    split at h
    · exact absurd h nofun
    · rename_i index around outer' houter
      obtain rfl : outer = (index, around) :: outer' := houter
      obtain ⟨part, -, rfl⟩ := Option.map_eq_some_iff.1 h
      show _ = (bottom ⟨around, outer', groups, names⟩).modes
      exact modes_bottom_congr rfl rfl
  · unfold Reading.repeat? at h
    split at h
    · obtain ⟨part, -, rfl⟩ := Option.map_eq_some_iff.1 h
      exact modes_bottom_congr rfl rfl
    · exact absurd h nofun
  · obtain rfl := Option.some.inj h
    exact modes_bottom_congr rfl rfl
  · exact absurd rfl (ht _)
  · obtain ⟨p, -, rfl⟩ := Option.map_eq_some_iff.1 h
    exact modes_bottom_congr rfl rfl

theorem modes_bottom_of_after? (hts : ∀ switches, .switch switches ∉ ts)
    (h : r.after? ts = some s) : s.bottom.modes = r.bottom.modes := by
  induction ts generalizing r with
  | nil => exact Option.some.inj h ▸ rfl
  | cons t ts ih =>
    obtain ⟨q, hq, hrest⟩ := Option.bind_eq_some_iff.1 h
    have ht : ∀ switches, t ≠ .switch switches := fun switches heq =>
      hts switches (heq ▸ List.mem_cons_self ..)
    rw [ih (fun switches hmem => hts switches (List.mem_cons_of_mem t hmem)) hrest,
      modes_bottom_of_next? ht hq]

end Reading

/-- Without switches the outermost group is in the modes in which it begins. -/
theorem modes_of_outermost? {text : String} {d : Draft} (h : outermost? text = some d)
    (hswitches : ¬ Token.HasSwitches text.toList) : d.modes = default := by
  obtain ⟨ts, hts, h⟩ := Option.bind_eq_some_iff.1 h
  obtain ⟨r, hr, hd⟩ := Option.bind_eq_some_iff.1 h
  have hmodes := Reading.modes_bottom_of_after?
    (fun switches hmem => hswitches (Token.hasSwitches_of_mem_scan hts hmem)) hr
  unfold Reading.outermost? at hd
  split at hd
  · rename_i houter
    obtain rfl := Option.some.inj hd
    rwa [Reading.bottom, List.isEmpty_iff.1 houter] at hmodes
  · exact absurd hd nofun

/-! ## Texts with anchors -/

/-- The part that a dollar sign behind a text is. -/
def Part.dollar (modes : Modes) : Part :=
  ⟨some (.assert modes.dollar), 0⟩

/-- What is read of a text with a caret in front. -/
theorem exists_outermost?_caret {text : String} {d : Draft} (h : outermost? text = some d) :
    ∃ d', outermost? ("^" ++ text) = some d' ∧ d.Anchored d' := by
  obtain ⟨ts, hts, h⟩ := Option.bind_eq_some_iff.1 h
  obtain ⟨r, hr, hd⟩ := Option.bind_eq_some_iff.1 h
  obtain ⟨r', hr', hled⟩ := Reading.exists_after?_of_led Reading.led_start hr
  obtain ⟨innermost, outer, groups, names⟩ := r
  obtain ⟨innermost', outer', groups', names'⟩ := r'
  obtain ⟨hdrafts, -, -⟩ := hled
  -- No group is open at the end, so the outermost one is all there is.
  cases hdrafts with
  | inside index d hrest => exact absurd hd nofun
  | outermost hanchored =>
    obtain rfl := Option.some.inj hd
    refine ⟨innermost', ?_, hanchored⟩
    have htext : ("^" ++ text).toList = '^' :: text.toList := String.toList_append ..
    have hcaret : Reading.start.next? .caret =
        some { Reading.start with innermost := Reading.start.innermost.push .caret } := rfl
    rw [outermost?, htext, Token.scan_caret hts, Option.bind_some, Reading.after?_cons, hcaret,
      Option.bind_some, hr']
    rfl

/-- What is read of a text with a dollar sign behind it. -/
theorem outermost?_dollar {text : String} {d : Draft} (h : outermost? text = some d) :
    outermost? (text ++ "$") = some (d.push (.dollar d.modes)) := by
  obtain ⟨ts, hts, h⟩ := Option.bind_eq_some_iff.1 h
  obtain ⟨r, hr, hd⟩ := Option.bind_eq_some_iff.1 h
  unfold Reading.outermost? at hd
  split at hd
  · rename_i houter
    obtain rfl := Option.some.inj hd
    have htext : (text ++ "$").toList = text.toList ++ ['$'] := String.toList_append ..
    have hdollar : r.next? .dollar =
        some { r with innermost := r.innermost.push (.dollar r.innermost.modes) } := rfl
    rw [outermost?, htext, Token.scan_dollar hts, Option.bind_some, Reading.after?_append, hr,
      Option.bind_some, Reading.after?_cons, hdollar]
    simp [Reading.after?, Reading.outermost?, houter]
  · exact absurd hd (by simp)

/-! ## What they match -/

variable {text : List Char} {d d' : Draft} {es : List Expr} {e : Expr} {i j : Nat}

/-- A caret in front lets a sequence match at the beginning of the text only. -/
theorem spans_caret_iff (hi : i ≤ text.length) :
    (Expr.sequence (.assert .textStart :: es)).Spans text i j ↔
      i = 0 ∧ (Expr.sequence es).Spans text i j := by
  have hstart : Assertion.textStart.holds (placeAt text i) = true ↔ i = 0 := by
    simp only [Assertion.holds, placeAt]
    cases i with
    | zero => simp
    | succ i => simp [Nat.lt_of_succ_le hi]
  simp only [Expr.spans_sequence, Expr.SpansAll, Expr.Spans, hstart]
  constructor
  · intro h
    obtain ⟨k, ⟨rfl, rfl⟩, hrest⟩ := h
    exact ⟨rfl, hrest⟩
  · intro h
    obtain ⟨rfl, hrest⟩ := h
    exact ⟨0, ⟨rfl, rfl⟩, hrest⟩

/-- A condition behind a sequence has to hold where it ends. -/
theorem spans_dollar_iff (a : Assertion) :
    (Expr.sequence (es ++ [.assert a])).Spans text i j ↔
      (Expr.sequence es).Spans text i j ∧ a.holds (placeAt text j) = true := by
  simp only [Expr.spans_sequence, Expr.spansAll_append, Expr.spansAll_singleton, Expr.Spans]
  constructor
  · intro h
    obtain ⟨k, hrest, ha, rfl⟩ := h
    exact ⟨hrest, ha⟩
  · intro h
    exact ⟨j, h.1, h.2, rfl⟩

theorem filterMap_reverse_concat (ps : List Part) (p : Part) (he : p.expr = some e) :
    (ps ++ [p]).reverse.filterMap Part.expr = e :: ps.reverse.filterMap Part.expr := by
  rw [List.reverse_append, List.reverse_singleton, List.singleton_append,
    List.filterMap_cons_some he]

theorem filterMap_reverse_cons (ps : List Part) (p : Part) (he : p.expr = some e) :
    (p :: ps).reverse.filterMap Part.expr = ps.reverse.filterMap Part.expr ++ [e] := by
  rw [List.reverse_cons, List.filterMap_append, List.filterMap_cons_some he, List.filterMap_nil]

theorem choices_eq (d : Draft) : d.choices = d.alternatives.reverse.filterMap Part.expr ++
    [.sequence (d.parts.reverse.filterMap Part.expr)] :=
  filterMap_reverse_cons d.alternatives d.current rfl

/-- With a caret in front, the first alternative begins with it. -/
theorem Draft.Anchored.choices (h : d.Anchored d') : ∃ es rest,
    d.choices = .sequence es :: rest ∧
      d'.choices = .sequence (.assert .textStart :: es) :: rest := by
  cases h with
  | first parts modes =>
    refine ⟨parts.reverse.filterMap Part.expr, [], choices_eq _, ?_⟩
    rw [choices_eq, filterMap_reverse_concat parts .caret rfl]
    rfl
  | later others front parts modes =>
    refine ⟨front.reverse.filterMap Part.expr, others.reverse.filterMap Part.expr ++
      [.sequence (parts.reverse.filterMap Part.expr)], ?_, ?_⟩
    · rw [choices_eq, filterMap_reverse_concat others _ rfl, List.cons_append]
    · rw [choices_eq, filterMap_reverse_concat others _ rfl, filterMap_reverse_concat front _ rfl,
        List.cons_append]

/-- With a dollar sign behind, the last alternative ends with it. -/
theorem Draft.choices_push_dollar (d : Draft) (modes : Modes) : ∃ front es,
    d.choices = front ++ [.sequence es] ∧
      (d.push (.dollar modes)).choices = front ++ [.sequence (es ++ [.assert modes.dollar])] := by
  refine ⟨_, _, choices_eq d, ?_⟩
  rw [choices_eq, Draft.push, filterMap_reverse_cons d.parts (.dollar modes) rfl]

end Morphology.Pattern
