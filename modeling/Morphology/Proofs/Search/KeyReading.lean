import Morphology.Proofs.Grammar.Occurrence
import Morphology.Proofs.Search.Soundness

/-!
# What the search reads where a level is opened

A level that leads to a wordform has read the key of its inflexion where it was opened, as long as
no boundary that the key passes over hands over.

## Main definitions

* `Inflexion.leading` — the parts that the key of an inflexion passes over
* `Inflexion.KeyInPlace` — none of these hands over, once the front of the stem is behind
* `Agrees` — a text begins with a key, wildcards on both sides agreeing with everything

## Main statements

* `Matcher.Yields.agrees_slotKey`, `Matcher.Yields.agrees_anchoredKey` — what a level that leads to
  a wordform has read
* `Matcher.Yields.mem_wf` — the wordform has the characters of every level
-/

namespace Morphology

/-! ## Keys in place -/

namespace Inflexion

/-- The parts that the key passes over, the stem being behind. -/
def leading (i : Inflexion) : List FlexPart :=
  i.parts.takeWhile fun p => p.role = .empty || p.role = .startWithSelf || p.role.isBoundary

/-- The key passes over no boundary but the one at the front, where the search passes it too. -/
def KeyInPlace (i : Inflexion) : Prop :=
  i.anchoredKey ≠ [] →
    ∀ p ∈ i.leading.drop (if i.startWithSelf then 2 else 1), p.role.isBoundary = false

/-- If the inflexion may precede its stem, the key passes over no boundary at all. -/
def KeyInPlaceAtFront (i : Inflexion) : Prop :=
  i.anchoredKey ≠ [] → i.startWithSelf = true → ∀ p ∈ i.leading, p.role.isBoundary = false

end Inflexion

/-- A text begins with a key; wildcards of both agree with every character. -/
def Agrees : (key text : List Char) → Prop
  | [], _ => True
  | _ :: _, [] => False
  | c :: key, d :: text => agree c d = true ∧ Agrees key text

theorem Agrees.keyAt {key text : List Char} (h : Agrees key text) (hwild : wildcard ∉ key) :
    KeyAt key text := by
  induction key generalizing text with
  | nil => trivial
  | cons c key ih =>
    cases text with
    | nil => exact h
    | cons d text =>
      -- A character of the key that is no wildcard agrees with itself or with a wildcard of the
      -- word.
      obtain ⟨hc, hkey⟩ := not_or.1 (mt List.mem_cons.2 hwild)
      refine ⟨?_, ih h.2 hkey⟩
      have hagree := h.1
      simp only [agree, Bool.or_eq_true, beq_iff_eq] at hagree
      rcases hagree with (rfl | rfl) | rfl
      · exact .inl rfl
      · exact absurd rfl hc
      · exact .inr rfl

namespace Matcher

variable {m : Matcher} {st : SearchState} {level : Nat} {l : Level} {i : Inflexion}
  {host : List Char} {maxEdits : Nat} {w : Wordform}

/-! ## Reading the last level -/

/-- It is the turn of a level. -/
structure AtLevel (m : Matcher) (st : SearchState) (level : Nat) (l : Level) (i : Inflexion) :
    Prop where
  current : st.current = some level
  level : st.levels[level]? = some l
  inflexion : m.inflexionOf? l = some i

theorem AtLevel.nextPart (hat : AtLevel m st level l i) :
    AtLevel m (st.modifyLevel level (·.nextPart)) level l.nextPart i where
  current := hat.current
  level := SearchState.getElem?_modifyLevel.2 ⟨l, hat.level, if_pos rfl⟩
  inflexion := hat.inflexion

theorem AtLevel.atPart (hat : AtLevel m st level l i) {part : FlexPart} {parts : List FlexPart}
    (hdrop : i.parts.drop l.part = part :: parts) : AtPart m st level l i part := by
  refine ⟨hat.current, hat.level, hat.inflexion, ?_⟩
  have := congrArg (·[0]?) hdrop
  simpa using this

theorem drop_nextPart {part : FlexPart} {parts : List FlexPart}
    (hdrop : i.parts.drop l.part = part :: parts) : i.parts.drop l.nextPart.part = parts := by
  have := congrArg List.tail hdrop
  simpa [Level.nextPart] using this

/-- The characters of a level up to its next marker. -/
def stretch (i : Inflexion) (l : Level) : List Char :=
  match i.parts.drop l.part with
  | [] => []
  | part :: parts =>
    if part.role.isMarker then []
    else part.surface.drop l.consumed ++
      (parts.takeWhile fun p => !p.role.isMarker).flatMap (·.surface)

theorem stretch_of_affix {part : FlexPart} {parts : List FlexPart}
    (hdrop : i.parts.drop l.part = part :: parts) (hmarker : part.role.isMarker = false) :
    stretch i l = part.surface.drop l.consumed ++
      (parts.takeWhile fun p => !p.role.isMarker).flatMap (·.surface) := by
  simp [stretch, hdrop, hmarker]

theorem stretch_nextPart {part : FlexPart} {parts : List FlexPart}
    (hdrop : i.parts.drop l.part = part :: parts) :
    stretch i l.nextPart = (parts.takeWhile fun p => !p.role.isMarker).flatMap (·.surface) := by
  unfold stretch
  rw [drop_nextPart hdrop]
  cases parts with
  | nil => rfl
  | cons q parts =>
    cases hq : q.role.isMarker with
    | true => simp [hq]
    | false => simp [hq, Level.nextPart]

theorem surface_eq_nil_of_mayRemain {p : FlexPart} (hrole : p.role.isMarker = false)
    (h : mayRemain p = true) : p.surface = [] := by
  unfold mayRemain at h
  cases hr : p.role <;> simp_all [Role.isMarker]

/-- Nothing is to be read of a finished level. -/
theorem surfaces_of_isFinished (hi : m.inflexionOf? l = some i) (h : m.isFinished l = true)
    {part : FlexPart} {parts : List FlexPart} (hdrop : i.parts.drop l.part = part :: parts) :
    (part.role.isMarker = false → part.surface.drop l.consumed = []) ∧
      ∀ p ∈ parts, p.role.isMarker = false → p.surface = [] := by
  simp only [isFinished, hi, hdrop, Bool.and_eq_true, Bool.or_eq_true, decide_eq_true_eq,
    List.all_eq_true] at h
  obtain ⟨hfirst, hmore⟩ := h
  refine ⟨fun hrole => ?_, fun p hp hrole => surface_eq_nil_of_mayRemain hrole (hmore p hp)⟩
  rcases hfirst with hremain | ⟨-, hlen⟩
  · rw [surface_eq_nil_of_mayRemain hrole hremain, List.drop_nil]
  · exact List.drop_eq_nil_iff.2 hlen

theorem flatMap_takeWhile_eq_nil {parts : List FlexPart}
    (h : ∀ p ∈ parts, p.role.isMarker = false → p.surface = []) :
    (parts.takeWhile fun p => !p.role.isMarker).flatMap (·.surface) = [] := by
  rw [List.flatMap_eq_nil_iff]
  intro p hp
  have hunmarked := List.all_eq_true.1 List.all_takeWhile p hp
  exact h p ((List.takeWhile_prefix _).subset hp) (by simpa using hunmarked)

/-- What is accepted has all its levels finished. -/
theorem isFinished_of_accept? (hacc : m.accept? host maxEdits st = some w)
    (hl : st.levels[level]? = some l) : m.isFinished l = true := by
  have hcomplete := (of_accept?_eq_some hacc).1
  simp only [isComplete, Bool.and_eq_true, List.all_eq_true] at hcomplete
  exact hcomplete.2 l (List.mem_of_getElem? hl)

theorem stretch_of_isFinished (hi : m.inflexionOf? l = some i) (h : m.isFinished l = true) :
    stretch i l = [] := by
  cases hdrop : i.parts.drop l.part with
  | nil => simp [stretch, hdrop]
  | cons part parts =>
    obtain ⟨hfirst, hmore⟩ := surfaces_of_isFinished hi h hdrop
    cases hmarker : part.role.isMarker with
    | true => simp [stretch, hdrop, hmarker]
    | false =>
      rw [stretch_of_affix hdrop hmarker, hfirst hmarker, flatMap_takeWhile_eq_nil hmore,
        List.nil_append]

/-- A level that `Yields` a wordform reads its stretch where it stands. -/
theorem Yields.agrees_stretch (h : m.Yields host maxEdits st w) (hat : AtLevel m st level l i) :
    Agrees (stretch i l) (st.placement.word.drop st.pos) := by
  induction h using Yields.induction generalizing l with
  -- A level that is finished has nothing left to read.
  | accept st _ hacc =>
    rw [stretch_of_isFinished hat.inflexion (isFinished_of_accept? hacc hat.level)]
    trivial
  | move st st' _ hmove _ ih =>
    cases hdrop : i.parts.drop l.part with
    | nil => simp [stretch, hdrop, Agrees]
    | cons part parts =>
      cases hmarker : part.role.isMarker with
      -- At a marker the stretch is at its end.
      | true => simp [stretch, hdrop, hmarker, Agrees]
      | false =>
        have hstep := mem_step_iff.2 hmove
        rw [step_of_surface (hat.atPart hdrop) hmarker, stepSurface] at hstep
        rw [stretch_of_affix hdrop hmarker,
          List.drop_eq_getElem?_toList_append (l := part.surface)]
        cases hc : part.surface[l.consumed]? with
        | none =>
          -- The part is read, and the next one goes on with the stretch.
          simp only [hc, List.mem_singleton] at hstep
          subst hstep
          have hnext := ih hat.nextPart
          have hend : part.surface.drop (l.consumed + 1) = [] := by
            have := List.getElem?_eq_none_iff.1 hc
            exact List.drop_eq_nil_iff.2 (Nat.le_succ_of_le this)
          rw [stretch_nextPart hdrop] at hnext
          rw [hend]
          exact hnext
        -- The next character of the part is read from the word.
        | some c =>
          simp only [hc, List.mem_ite_nil_right, List.mem_singleton] at hstep
          obtain ⟨hread, rfl⟩ := hstep
          obtain ⟨d, hd, hagree⟩ := Option.any_eq_true _ _ |>.1 hread
          have hd : st.placement.word[st.pos]? = some d := hd
          let further (l : Level) : Level := { l with consumed := l.consumed + 1 }
          have hfurther : AtLevel m { st.modifyLevel level further with pos := st.pos + 1 } level
              (further l) i :=
            ⟨hat.current, SearchState.getElem?_modifyLevel.2 ⟨l, hat.level, if_pos rfl⟩,
              hat.inflexion⟩
          have hnext := ih hfurther
          rw [stretch_of_affix (l := further l) hdrop hmarker] at hnext
          rw [List.drop_eq_getElem?_toList_append (l := st.placement.word), hd]
          exact ⟨hagree, hnext⟩

/-! ## Reading a key -/

/-- What is left of a key from a level on. -/
theorem keyFrom_eq_stretch {skip : Role → Bool} {part : FlexPart} {parts : List FlexPart}
    (hdrop : i.parts.drop l.part = part :: parts) (hskip : skip part.role = false)
    (hfresh : l.consumed = 0) : Inflexion.keyFrom skip (i.parts.drop l.part) = stretch i l := by
  unfold Inflexion.keyFrom stretch
  simp only [hdrop, List.dropWhile_cons, hskip, Bool.false_eq_true, if_false, hfresh,
    List.drop_zero]
  cases hrole : part.role.isMarker with
  | true => simp [hrole]
  | false => simp [hrole]

theorem keyFrom_cons {skip : Role → Bool} {part : FlexPart} {parts : List FlexPart}
    (hskip : skip part.role = true) :
    Inflexion.keyFrom skip (part :: parts) = Inflexion.keyFrom skip parts := by
  simp [Inflexion.keyFrom, hskip]

/-- A level that `Yields` a wordform reads its key, if the boundaries passed over in front of the
key do not hand over. -/
theorem Yields.agrees_keyFrom {skip : Role → Bool} (h : m.Yields host maxEdits st w)
    (hat : AtLevel m st level l i) (hfresh : l.consumed = 0)
    (hspelled : ∀ p ∈ i.parts, p.Spelled)
    (hskip : ∀ r, skip r = true → r = .empty ∨ r = .startWithSelf ∨ r.isBoundary = true)
    (hover : ∀ k part, ((i.parts.drop l.part).takeWhile fun p => skip p.role)[k]? = some part →
      part.role.isBoundary = true → handsOver st level (l.part + k) i = false) :
    Agrees (Inflexion.keyFrom skip (i.parts.drop l.part)) (st.placement.word.drop st.pos) := by
  induction h using Yields.induction generalizing l with
  | accept st hend hacc =>
    cases hdrop : i.parts.drop l.part with
    | nil => trivial
    | cons part parts =>
      -- A level that is finished has no text left, and so no key.
      have hfinished := isFinished_of_accept? hacc hat.level
      obtain ⟨hfirst, hmore⟩ := surfaces_of_isFinished hat.inflexion hfinished hdrop
      have hall : ∀ p ∈ part :: parts, p.role.isMarker = false → p.surface = [] := by
        rw [List.forall_mem_cons]
        refine ⟨fun hrole => ?_, hmore⟩
        simpa [hfresh] using hfirst hrole
      have hnil : Inflexion.keyFrom skip (part :: parts) = [] := by
        apply flatMap_takeWhile_eq_nil
        intro p hp
        exact hall p ((List.dropWhile_suffix _).subset hp)
      rw [hnil]
      trivial
  | move st st' hgo hmove hyields ih =>
    cases hdrop : i.parts.drop l.part with
    | nil => trivial
    | cons part parts =>
      cases hs : skip part.role with
      -- The key begins here, with the stretch that the level reads.
      | false =>
        rw [← hdrop, keyFrom_eq_stretch hdrop hs hfresh]
        exact (yields_iff.2 (.inr ⟨hgo, st', mem_step_iff.2 hmove, hyields⟩)).agrees_stretch hat
      | true =>
        rw [keyFrom_cons hs]
        have hpart := hat.atPart hdrop
        have hmem : part ∈ i.parts := List.mem_of_getElem? hpart.part
        have hstep := mem_step_iff.2 hmove
        -- Whatever the part is, it is passed without reading.
        obtain rfl : st' = st.modifyLevel level (·.nextPart) := by
          rcases hskip part.role hs with hrole | hrole | hrole
          · have hsurface : part.surface = [] := hspelled part hmem (.inl hrole)
            rw [step_of_surface hpart (by rw [hrole]; rfl)] at hstep
            simpa [stepSurface, hsurface] using hstep
          · rw [step_of_self hpart hrole] at hstep
            exact List.mem_singleton.1 hstep
          · have hstay : handsOver st level l.part i = false :=
              hover 0 part (by simp [hdrop, hs]) hrole
            rw [step_of_boundary hpart hrole] at hstep
            simpa [hstay] using hstep
        -- Further on, the parts passed over are those behind this one.
        have hnext := ih hat.nextPart rfl (by
          intro k q hq hrole
          rw [drop_nextPart hdrop] at hq
          have := hover (k + 1) q (by simpa [hdrop, List.takeWhile_cons, hs] using hq) hrole
          rwa [← Nat.add_assoc, Nat.add_right_comm] at this)
        rwa [drop_nextPart hdrop] at hnext

/-! ## The key of a level that is opened -/

variable {id : InflexionId}

theorem atLevel_openLevel (hi : m.grammar.inflexion? id = some i) :
    AtLevel m (m.openLevel st id) st.levels.length (.start id) i where
  current := rfl
  level := by simp
  inflexion := hi

/-- In front of a stem the key passes over no boundary. -/
theorem Yields.agrees_slotKey (h : m.Yields host maxEdits (m.openLevel st id) w)
    (hi : m.grammar.inflexion? id = some i) (hwf : i.WellFormed) :
    Agrees i.slotKey (st.placement.word.drop st.pos) := by
  apply h.agrees_keyFrom (atLevel_openLevel hi) rfl hwf.spelled
  · intro r hr
    cases r <;> simp_all
  · intro k part hpart hboundary
    have hskip := List.all_eq_true.1 List.all_takeWhile part (List.mem_of_getElem? hpart)
    cases hrole : part.role <;> simp_all [Role.isBoundary]

/-- Behind the first boundary of a stem, none of the boundaries that a key in place passes over
hands over. -/
theorem handsOver_openLevel_eq_false (hkey : i.KeyInPlace) (hnil : i.anchoredKey ≠ [])
    (hfront : st.stemPos < 2 → st.placement.startsWithBoundary = true →
      st.levels ≠ [] ∧ i.KeyInPlaceAtFront)
    {k : Nat} {part : FlexPart} (hpart : i.leading[k]? = some part)
    (hboundary : part.role.isBoundary = true) :
    handsOver (m.openLevel st id) st.levels.length k i = false := by
  have hplace := hkey hnil
  -- A boundary that is passed over stands among the first parts, where no key is out of place.
  have hearly {n : Nat} (hdrop : ∀ p ∈ i.leading.drop n, p.role.isBoundary = false) : k < n := by
    by_contra hle
    obtain ⟨j, rfl⟩ := Nat.exists_eq_add_of_le (Nat.not_lt.1 hle)
    have hmem : part ∈ i.leading.drop n := by
      apply List.mem_of_getElem?
      rw [List.getElem?_drop]
      exact hpart
    exact Bool.false_ne_true ((hdrop part hmem).symm.trans hboundary)
  unfold handsOver
  show (if i.startWithSelf then decide (1 < k) || (decide (st.stemPos < 2) &&
      st.placement.startsWithBoundary)
    else k != 0 || (st.levels.length == 0 && (decide (st.stemPos < 2) &&
      st.placement.startsWithBoundary))) = false
  cases hself : i.startWithSelf with
  | true =>
    rw [hself, if_pos rfl] at hplace
    have hlt := hearly hplace
    -- Near a boundary at the front, an inflexion that precedes its stem has no such part.
    have haway : (decide (st.stemPos < 2) && st.placement.startsWithBoundary) = false := by
      by_contra hnear
      rw [Bool.not_eq_false, Bool.and_eq_true, decide_eq_true_eq] at hnear
      obtain ⟨-, hnone⟩ := hfront hnear.1 hnear.2
      have := hnone hnil hself part (List.mem_of_getElem? hpart)
      exact Bool.false_ne_true (this.symm.trans hboundary)
    simp only [if_true, haway, Bool.or_false, decide_eq_false_iff_not]
    omega
  | false =>
    rw [hself, if_neg Bool.false_ne_true] at hplace
    have hlt := hearly hplace
    -- Only the first part can be passed over here.
    obtain rfl : k = 0 := by omega
    have haway : (st.levels.length == 0 && (decide (st.stemPos < 2) &&
        st.placement.startsWithBoundary)) = false := by
      by_contra hnear
      rw [Bool.not_eq_false, Bool.and_eq_true, Bool.and_eq_true, beq_iff_eq,
        List.length_eq_zero_iff, decide_eq_true_eq] at hnear
      exact (hfront hnear.2.1 hnear.2.2).1 hnear.1
    simp only [Bool.false_eq_true, if_false, haway, Bool.or_false]
    rfl

/-- Behind the first boundary of a stem the search stays in the level while it passes over what the
key passes over, so `anchoredKey` agrees with the word. -/
theorem Yields.agrees_anchoredKey (h : m.Yields host maxEdits (m.openLevel st id) w)
    (hi : m.grammar.inflexion? id = some i) (hwf : i.WellFormed) (hkey : i.KeyInPlace)
    (hfront : st.stemPos < 2 → st.placement.startsWithBoundary = true →
      st.levels ≠ [] ∧ i.KeyInPlaceAtFront) :
    Agrees i.anchoredKey (st.placement.word.drop st.pos) := by
  by_cases hnil : i.anchoredKey = []
  · rw [hnil]
    trivial
  · apply h.agrees_keyFrom (atLevel_openLevel hi) rfl hwf.spelled
    · intro r hr
      cases r <;> simp_all [Role.isBoundary]
    · intro k part hpart hboundary
      have hstart : (Level.start id).part + k = k := Nat.zero_add k
      rw [hstart]
      exact handsOver_openLevel_eq_false hkey hnil hfront hpart hboundary

/-! ## Characters of the wordform -/

/-- A wordform has the characters of every level that `Yields` it. -/
theorem Yields.mem_wf (h : m.Yields host maxEdits st w) (hown : m.CandidatesOwned)
    (hinc : ∀ word pos sub length, (sub, length) ∈ m.incorporations word pos →
      m.grammar.MayBeIncorporated sub)
    {p : Placement} (hs : Sound m p st) (hid : id ∈ st.chain)
    (hi : m.grammar.inflexion? id = some i) {part : FlexPart} (hpart : part ∈ i.parts)
    (hrole : part.role.isMarker = false) {c : Char} (hc : c ∈ part.surface) :
    c ∈ w.wf.toList := by
  induction h using Yields.induction with
  | accept st _ hacc =>
    obtain ⟨-, -, merged, hmerged, hbuilt⟩ := of_accept?_eq_some hacc
    obtain ⟨l, hl, rfl⟩ := List.mem_map.1 hid
    -- Only places for stems are filled, so the part is kept where the chain is merged.
    have hplaces : ∀ link ∈ st.levels.map (·.link), m.grammar.FillsPlaces link := by
      intro link hlink inc hmem j hj q hq
      obtain ⟨l', hl', rfl⟩ := List.mem_map.1 hlink
      obtain ⟨-, j', q', hj', hq', hplace⟩ := hs.incorporates l' hl' inc hmem
      obtain rfl : j = j' := Option.some.inj (hj.symm.trans hj')
      obtain rfl : q = q' := Option.some.inj (hq.symm.trans hq')
      exact hplace
    have hkept := Grammar.mem_parts_of_mergeChain? (List.mem_map_of_mem hl) hplaces hi hpart hrole
      hmerged
    apply Grammar.mem_wf_of_buildWordform? hbuilt hkept ?_ hc
    cases hr : part.role <;> simp_all [Role.isMarker, Role.isBoundary]
  -- A move keeps the chain or adds to it at the end.
  | move st st' _ hmove _ ih =>
    apply ih (hs.move hown hinc hmove)
    rcases hmove.sameChain_or_opens with hsame | ⟨st₁, slot, h', id', hsame, -, -, -, rfl⟩
    · rwa [hsame.chain]
    · rw [openLevel_chain, hsame.chain]
      exact List.mem_append_left _ hid

theorem exists_part_of_mem_keyFrom {skip : Role → Bool} {parts : List FlexPart} {c : Char}
    (hc : c ∈ Inflexion.keyFrom skip parts) :
    ∃ part ∈ parts, part.role.isMarker = false ∧ c ∈ part.surface := by
  obtain ⟨part, hpart, hc⟩ := List.mem_flatMap.1 hc
  have hrole := List.all_eq_true.1 List.all_takeWhile part hpart
  have hmem := (List.takeWhile_prefix _).subset hpart
  exact ⟨part, (List.dropWhile_suffix _).subset hmem, by simpa using hrole, hc⟩

end Matcher

end Morphology
