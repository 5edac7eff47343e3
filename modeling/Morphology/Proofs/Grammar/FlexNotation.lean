import Mathlib.Data.List.Basic
import Mathlib.Data.List.Chain
import Morphology.Proofs.Grammar.Joins

/-!
# The notation of flexes

A flex is in the notation if it is a sequence of items, perhaps behind the sign for preceding the
stem.  Exactly such flexes are read, and no character gets lost: the parts written down again are
the flex without its bars and with a stem boundary.

## Main definitions

* `Flex.Item` — the items of the notation
* `Flex.Item.Apart` — two items that may stand side by side
* `Flex.Writes`, `Flex.Spells` — a text is a sequence of items, a flex is
* `FlexPart.write`, `Flex.withoutBars` — parts in the notation, and items but for bars
* `Flex.front` — the sign for preceding the stem if a flex begins with it

## Main statements

* `Flex.exists_scan_of_writes` — items are read, each with its characters
* `Flex.isItems_of_scan` — what is read is a sequence of items
* `Flex.read_iff_spells` — the flexes that are read, and what their parts are written as
-/

namespace Morphology

/-- A part in the notation. -/
def FlexPart.write (p : FlexPart) : List Char :=
  match p.role with
  | .empty => []
  | .affix => p.glossed.toList
  | .inner => '<' :: p.glossed.toList ++ ['>']
  | .reduplRight => p.glossed.toList ++ ['~']
  | .reduplLeft => '~' :: p.glossed.toList
  | .stem => ['.']
  | .forcedStem => ['[', '.', ']']
  | .stemSpec => '[' :: p.glossed.toList ++ [']']
  | .continuation => ['<', '.', '>']
  | .incorporation => ['<', '+', '>']
  | .startWithSelf => Flex.selfMark

namespace Flex

/-! ## Items -/

/-- The characters that mean something in the notation. -/
def specials : List Char :=
  ['.', '|', '[', ']', '<', '>', '~']

/-- Text in which no character means anything. -/
structure IsPlain (text : List Char) : Prop where
  nonempty : text ≠ []
  clean : ∀ c ∈ text, c ∉ specials

theorem endsText_iff {c : Char} : endsText c = true ↔ c ∈ specials :=
  List.contains_iff_mem.trans (List.Perm.mem_iff (by decide))

/-- An item of the notation. -/
inductive Item
  /-- The stem boundary `.`. -/
  | boundary
  /-- The end `|` of an affix. -/
  | bar
  /-- What stands in square brackets. -/
  | square (text : List Char)
  /-- What stands in angle brackets. -/
  | angle (text : List Char)
  | plain (text : List Char)
  /-- A reduplicant in front of its tilde. -/
  | reduplRight (text : List Char)
  /-- A reduplicant behind its tilde. -/
  | reduplLeft (text : List Char)
  deriving DecidableEq

namespace Item

/-- The characters of an item. -/
def write : Item → List Char
  | .boundary => ['.']
  | .bar => ['|']
  | .square x => '[' :: x ++ [']']
  | .angle x => '<' :: x ++ ['>']
  | .plain x => x
  | .reduplRight x => x ++ ['~']
  | .reduplLeft x => '~' :: x

/-- What an item may have as its text. -/
def IsProper : Item → Prop
  | .boundary | .bar => True
  | .square x => x ≠ [] ∧ ']' ∉ x
  | .angle x => x ≠ [] ∧ '>' ∉ x
  | .plain x | .reduplRight x | .reduplLeft x => IsPlain x

/-- Whether the item is a stem boundary. -/
def isBoundary : Item → Bool
  | .boundary => true
  | .square x => x == ['.']
  | _ => false

/-- Side by side, the tilde of the second item is not one behind the text of the first. -/
def Separated : Item → Item → Prop
  | .plain _, .reduplLeft _ => False
  | _, _ => True

/-- Side by side, neither the tilde nor the text of the second item could belong to the first. -/
def Apart : Item → Item → Prop
  | .plain _, .reduplLeft _ => False
  | .reduplLeft _, .plain _ => False
  | .reduplLeft _, .reduplRight _ => False
  | _, _ => True

theorem IsProper.write_ne_nil {i : Item} (hi : i.IsProper) : i.write ≠ [] := by
  cases i with
  | plain x => exact hi.nonempty
  | boundary | bar | square x | angle x | reduplRight x | reduplLeft x => simp [write]

/-- What may not follow plain text begins with a tilde. -/
theorem apart_plain {x : List Char} {i : Item} (h : i.write.head? ≠ some '~') :
    (Item.plain x).Apart i := by
  cases i with
  | reduplLeft y => exact absurd rfl h
  | boundary | bar | square y | angle y | plain y | reduplRight y => trivial

/-- What may follow a reduplicant behind its tilde begins with a character that ends the text. -/
theorem apart_reduplLeft_iff {x : List Char} {i : Item} (hi : i.IsProper) :
    (Item.reduplLeft x).Apart i ↔ ∀ c ∈ i.write.head?, c ∈ specials := by
  have hplain {y : List Char} (hy : IsPlain y) (rest : List Char) :
      ¬ ∀ c ∈ (y ++ rest).head?, c ∈ specials := by
    obtain ⟨c, y, rfl⟩ := List.exists_cons_of_ne_nil hy.nonempty
    exact fun h => hy.clean c (List.mem_cons_self ..) (h c rfl)
  cases i with
  | plain y => exact iff_of_false id (by simpa [write] using hplain hi [])
  | reduplRight y => exact iff_of_false id (hplain hi _)
  | boundary | bar | square y | angle y | reduplLeft y =>
    exact iff_of_true trivial (by simp [write, specials])

end Item

/-- The characters of items, those of bars left out. -/
def withoutBars (items : List Item) : List Char :=
  (items.filter (· ≠ .bar)).flatMap Item.write

theorem withoutBars_cons (i : Item) (items : List Item) :
    withoutBars (i :: items) = (if i = .bar then [] else i.write) ++ withoutBars items := by
  unfold withoutBars
  by_cases hi : i = .bar
  · simp [hi]
  · simp [hi]

/-- A text is a sequence of items, each of which may follow the one in front of it. -/
structure Writes (follows : Item → Item → Prop) (items : List Item) (text : List Char) : Prop where
  proper : ∀ i ∈ items, i.IsProper
  follows : items.IsChain follows
  text_eq : text = items.flatMap Item.write

/-- A flex is a sequence of items, perhaps behind the sign for preceding the stem. -/
def Spells (follows : Item → Item → Prop) (lead : List Char) (items : List Item)
    (flex : List Char) : Prop :=
  (lead = [] ∨ lead = selfMark) ∧ ∃ rest, flex = lead ++ rest ∧ Writes follows items rest

namespace Writes

variable {follows : Item → Item → Prop} {items : List Item} {text : List Char}

theorem head?_write (h : Writes follows items text) {i : Item} (hi : i ∈ items.head?) :
    i.write.head? = text.head? := by
  cases items with
  | nil => exact absurd hi (by simp)
  | cons j items =>
    obtain rfl : j = i := by simpa using hi
    have hne := (h.proper j (List.mem_cons_self ..)).write_ne_nil
    rw [h.text_eq, List.flatMap_cons, List.head?_append_of_ne_nil _ hne]

theorem cons {i : Item} (h : Writes follows items text) (hi : i.IsProper)
    (hfollows : ∀ j ∈ items.head?, follows i j) :
    Writes follows (i :: items) (i.write ++ text) where
  proper := List.forall_mem_cons.2 ⟨hi, h.proper⟩
  follows := h.follows.cons hfollows
  text_eq := by rw [List.flatMap_cons, h.text_eq]

theorem tail {i : Item} (h : Writes follows (i :: items) text) :
    Writes follows items (items.flatMap Item.write) where
  proper := (List.forall_mem_cons.1 h.proper).2
  follows := (List.isChain_cons.1 h.follows).2
  text_eq := rfl

end Writes

/-! ## Items are read -/

/-- The characters of a part in brackets are those that were read. -/
theorem write_squarePart (x : List Char) : (squarePart x).write = '[' :: x ++ [']'] := by
  unfold squarePart
  split
  · rename_i hx
    rw [hx]
    rfl
  · simp [FlexPart.write, FlexPart.stemSpec]

theorem write_anglePart (x : List Char) : (anglePart x).write = '<' :: x ++ ['>'] := by
  unfold anglePart
  split
  · rename_i hx
    rw [hx]
    rfl
  · split
    · rename_i hx
      rw [hx]
      rfl
    · simp [FlexPart.write, FlexPart.affix]

theorem write_plainParts (x : List Char) : (plainParts x).flatMap FlexPart.write = x := by
  unfold plainParts
  split
  · rename_i hx
    exact (List.isEmpty_iff.1 hx).symm
  · simp [FlexPart.write, FlexPart.affix]

theorem isBoundary_squarePart (x : List Char) :
    (squarePart x).role.isBoundary = (x == ['.']) := by
  unfold squarePart
  split
  · rename_i hx
    rw [hx]
    rfl
  · rename_i hx
    simp [FlexPart.stemSpec, Role.isBoundary, hx]

theorem isBoundary_anglePart (x : List Char) : (anglePart x).role.isBoundary = false := by
  unfold anglePart
  split
  · rfl
  · split
    · rfl
    · rfl

theorem any_isBoundary_plainParts (x : List Char) :
    (plainParts x).any (·.role.isBoundary) = false := by
  unfold plainParts
  split
  · rfl
  · rfl

theorem scan_cons_of_step {before after : Pending} {c : Char} {made : List FlexPart}
    (h : step before c = .ok (made, after)) (rest : List Char) :
    scan before (c :: rest) = (scan after rest).map (made ++ ·) := by
  rw [scan, h]
  cases hscan : scan after rest with
  | error e => simp [bind, Except.bind, Except.map, hscan]
  | ok more => simp [bind, Except.bind, Except.map, hscan, pure, Except.pure]

/-- Characters that only make an item longer. -/
theorem scan_append (pending : List Char → Pending) {x : List Char}
    (h : ∀ before, ∀ c ∈ x, step (pending before) c = .ok ([], pending (before ++ [c])))
    (before rest : List Char) :
    scan (pending before) (x ++ rest) = scan (pending (before ++ x)) rest := by
  induction x generalizing before with
  | nil => rw [List.nil_append, List.append_nil]
  | cons c x ih =>
    have hx := ih (fun before c hc => h before c (List.mem_cons_of_mem _ hc)) (before ++ [c])
    rw [List.append_assoc, List.singleton_append] at hx
    rw [List.cons_append, scan_cons_of_step (h before c (List.mem_cons_self ..)), hx,
      map_nil_append]

theorem plainStep_of_notMem {c : Char} (h : c ∉ specials) (before : List Char) :
    plainStep before c = .ok ([], .plain (before ++ [c])) := by
  unfold plainStep
  split
  all_goals first | rfl | exact absurd (by decide) h

theorem scan_plain {x : List Char} (hx : ∀ c ∈ x, c ∉ specials) (before rest : List Char) :
    scan (.plain before) (x ++ rest) = scan (.plain (before ++ x)) rest :=
  scan_append .plain (fun before c hc => plainStep_of_notMem (hx c hc) before)
    before rest

/-- What stands in brackets goes up to the first one that closes them. -/
theorem scan_brackets (pending : List Char → Pending) {closing : Char}
    {part : List Char → FlexPart}
    (hinner : ∀ before c, c ≠ closing → step (pending before) c = .ok ([], pending (before ++ [c])))
    (hclose : ∀ x, x ≠ [] → step (pending x) closing = .ok ([part x], .plain []))
    {x : List Char} (hne : x ≠ []) (hx : closing ∉ x) (rest : List Char) :
    scan (pending []) (x ++ closing :: rest) =
      (scan (.plain []) rest).map ([part x] ++ ·) := by
  have hrun : scan (pending []) (x ++ closing :: rest) = scan (pending x) (closing :: rest) :=
    scan_append pending (fun before c hc => hinner before c fun h => hx (h ▸ hc)) [] _
  rw [hrun, scan_cons_of_step (hclose x hne)]

theorem scan_square {x : List Char} (hne : x ≠ []) (hx : ']' ∉ x) (rest : List Char) :
    scan (.square []) (x ++ ']' :: rest) = (scan (.plain []) rest).map ([squarePart x] ++ ·) :=
  scan_brackets .square (fun _ _ hc => if_neg hc) (fun x hne => by simp [step, hne]) hne hx rest

theorem scan_angle {x : List Char} (hne : x ≠ []) (hx : '>' ∉ x) (rest : List Char) :
    scan (.angle []) (x ++ '>' :: rest) = (scan (.plain []) rest).map ([anglePart x] ++ ·) :=
  scan_brackets .angle (fun _ _ hc => if_neg hc) (fun x hne => by simp [step, hne]) hne hx rest

/-- The text behind a tilde goes up to the next character that means something. -/
theorem scan_redupl {x rest : List Char} (hx : IsPlain x) (hrest : ∀ c ∈ rest.head?, c ∈ specials) :
    scan (.redupl []) (x ++ rest) =
      (scan (.plain []) rest).map ([.affix x .reduplLeft] ++ ·) := by
  have hrun : scan (.redupl []) (x ++ rest) = scan (.redupl x) rest :=
    scan_append .redupl
      (fun before c hc => if_neg fun h => hx.clean c hc (endsText_iff.1 h)) [] rest
  rw [hrun]
  cases rest with
  | nil => simp [scan, finish, hx.nonempty, plainParts, Except.map]
  | cons c rest =>
    -- The character that ends the text is read as one behind no text, with the same outcome.
    have hend : endsText c = true := endsText_iff.2 (hrest c rfl)
    cases hstep : step (.plain []) c with
    | error e =>
      have hplain : plainStep [] c = .error e := hstep
      simp [scan, step, hend, hx.nonempty, hplain, bind, Except.bind, Except.map]
    | ok next =>
      obtain ⟨made, after⟩ := next
      have hplain : plainStep [] c = .ok (made, after) := hstep
      have hredupl : step (.redupl x) c = .ok (.affix x .reduplLeft :: made, after) := by
        simp [step, hend, hx.nonempty, hplain, bind, Except.bind, pure, Except.pure]
      rw [scan_cons_of_step hredupl, scan_cons_of_step hstep, map_append_map_append]
      rfl

namespace Item

/-- The parts that an item completes behind plain text. -/
def completed (before : List Char) : Item → List FlexPart
  | .boundary => plainParts before ++ [.marker .stem]
  | .bar => plainParts before
  | .square x => plainParts before ++ [squarePart x]
  | .angle x => plainParts before ++ [anglePart x]
  | .plain _ => []
  | .reduplRight x => [.affix (before ++ x) .reduplRight]
  | .reduplLeft x => [.affix x .reduplLeft]

/-- The plain text that may still become longer behind an item. -/
def pendingText (before : List Char) : Item → List Char
  | .plain x => before ++ x
  | _ => []

/-- A tilde is not behind plain text, and the text behind it is at its end. -/
structure FitsBetween (before : List Char) (i : Item) (rest : List Char) : Prop where
  before : ∀ x, i = .reduplLeft x → before = []
  rest : ∀ x, i = .reduplLeft x → ∀ c ∈ rest.head?, c ∈ specials

/-- An item is read behind plain text. -/
theorem scan_write {i : Item} (hi : i.IsProper) {before rest : List Char}
    (hfits : i.FitsBetween before rest) :
    scan (.plain before) (i.write ++ rest) =
      (scan (.plain (i.pendingText before)) rest).map (i.completed before ++ ·) := by
  cases i with
  | boundary => exact scan_cons_of_step rfl rest
  | bar => exact scan_cons_of_step rfl rest
  | square x =>
    have hopen : step (.plain before) '[' = .ok (plainParts before, .square []) := rfl
    have hwrite : (square x).write ++ rest = '[' :: (x ++ ']' :: rest) := by simp [write]
    rw [hwrite, scan_cons_of_step hopen, scan_square hi.1 hi.2, map_append_map_append]
    rfl
  | angle x =>
    have hopen : step (.plain before) '<' = .ok (plainParts before, .angle []) := rfl
    have hwrite : (angle x).write ++ rest = '<' :: (x ++ '>' :: rest) := by simp [write]
    rw [hwrite, scan_cons_of_step hopen, scan_angle hi.1 hi.2, map_append_map_append]
    rfl
  | plain x =>
    rw [write, scan_plain hi.clean]
    exact (map_nil_append _).symm
  | reduplRight x =>
    have htilde : step (.plain (before ++ x)) '~' =
        .ok ([.affix (before ++ x) .reduplRight], .plain []) := by
      simp [step, plainStep, hi.nonempty]
    rw [write, List.append_assoc, scan_plain hi.clean, List.singleton_append,
      scan_cons_of_step htilde]
    rfl
  | reduplLeft x =>
    obtain rfl := hfits.before x rfl
    have htilde : step (.plain []) '~' = .ok ([], .redupl []) := rfl
    rw [write, List.cons_append, scan_cons_of_step htilde, scan_redupl hi (hfits.rest x rfl),
      map_nil_append]
    rfl

/-- The parts that an item completes and the text that it leaves have its characters. -/
theorem write_completed {i : Item} {before rest : List Char} (hfits : i.FitsBetween before rest) :
    (i.completed before).flatMap FlexPart.write ++ i.pendingText before =
      before ++ if i = .bar then [] else i.write := by
  cases i with
  | boundary => simp [completed, pendingText, write_plainParts, write, FlexPart.write,
      FlexPart.marker]
  | bar => simp [completed, pendingText, write_plainParts]
  | square x => simp [completed, pendingText, write_plainParts, write_squarePart, write]
  | angle x => simp [completed, pendingText, write_plainParts, write_anglePart, write]
  | plain x => simp [completed, pendingText, write]
  | reduplRight x => simp [completed, pendingText, write, FlexPart.write, FlexPart.affix]
  | reduplLeft x =>
    obtain rfl := hfits.before x rfl
    simp [completed, pendingText, write, FlexPart.write, FlexPart.affix]

theorem any_isBoundary_completed (i : Item) (before : List Char) :
    (i.completed before).any (·.role.isBoundary) = i.isBoundary := by
  cases i with
  | boundary => simp [completed, isBoundary, FlexPart.marker, Role.isBoundary]
  | bar => exact any_isBoundary_plainParts before
  | square x => simp [completed, any_isBoundary_plainParts, isBoundary_squarePart, isBoundary]
  | angle x => simp [completed, any_isBoundary_plainParts, isBoundary_anglePart, isBoundary]
  | plain x => rfl
  | reduplRight x => rfl
  | reduplLeft x => rfl

end Item

/-- Items that may stand side by side are read, each with its characters. -/
theorem exists_scan_of_writes {items : List Item} {text : List Char} (before : List Char)
    (h : Writes Item.Apart items text)
    (hbefore : before ≠ [] → ∀ x, items.head? ≠ some (.reduplLeft x)) :
    ∃ parts, scan (.plain before) text = .ok parts ∧
      parts.flatMap FlexPart.write = before ++ withoutBars items ∧
      parts.any (·.role.isBoundary) = items.any Item.isBoundary := by
  induction items generalizing text before with
  | nil =>
    obtain rfl := h.text_eq
    exact ⟨plainParts before, rfl, by simp [write_plainParts, withoutBars],
      any_isBoundary_plainParts before⟩
  | cons i items ih =>
    have hi := h.proper i (List.mem_cons_self ..)
    have hchain := (List.isChain_cons.1 h.follows).1
    have hfits : i.FitsBetween before (items.flatMap Item.write) := by
      refine ⟨fun x hx => ?_, fun x hx c hc => ?_⟩
      · -- With text before it, the item would be one that takes its tilde from there.
        by_contra hne
        exact hbefore hne x (by rw [hx]; rfl)
      · -- The characters behind the item are those of the next one.
        cases items with
        | nil => exact absurd hc (by simp)
        | cons j items =>
          have hj := h.proper j (by simp)
          rw [← h.tail.head?_write rfl] at hc
          exact (Item.apart_reduplLeft_iff hj).1 (hx ▸ hchain j rfl) c hc
    -- Only plain text leaves text that is not complete, and no reduplicant follows it.
    have hleft : i.pendingText before ≠ [] → ∀ x, items.head? ≠ some (.reduplLeft x) := by
      intro hne x hx
      cases i with
      | plain y => exact hchain _ hx
      | boundary | bar | square y | angle y | reduplRight y | reduplLeft y => exact hne rfl
    obtain ⟨parts, hscan, hwrite, hany⟩ := ih _ h.tail hleft
    refine ⟨i.completed before ++ parts, ?_, ?_, ?_⟩
    · rw [h.text_eq, List.flatMap_cons, Item.scan_write hi hfits, hscan]
      rfl
    · rw [List.flatMap_append, hwrite, ← List.append_assoc, Item.write_completed hfits,
        withoutBars_cons, List.append_assoc]
    · rw [List.any_append, Item.any_isBoundary_completed, hany, List.any_cons]

/-! ## What is read are items -/

/-- The characters of an item that is not complete yet. -/
def Pending.write : Pending → List Char
  | .plain x => x
  | .square x => '[' :: x
  | .angle x => '<' :: x
  | .redupl x => '~' :: x

/-- Nothing in the text of an item that is not complete yet would have completed it. -/
def Pending.IsOpen : Pending → Prop
  | .plain x | .redupl x => ∀ c ∈ x, c ∉ specials
  | .square x => ']' ∉ x
  | .angle x => '>' ∉ x

/-- A text is a sequence of items that may stand side by side. -/
def IsItems (text : List Char) : Prop :=
  ∃ items, Writes Item.Apart items text

namespace IsItems

theorem nil : IsItems [] :=
  ⟨[], List.forall_mem_nil _, .nil, rfl⟩

variable {text rest : List Char} {c : Char}

/-- An item that anything may follow. -/
theorem cons {i : Item} (h : IsItems text) (hi : i.IsProper) (hapart : ∀ j, i.Apart j) :
    IsItems (i.write ++ text) := by
  obtain ⟨items, hitems⟩ := h
  exact ⟨_, hitems.cons hi fun j _ => hapart j⟩

/-- Plain text in front of anything but a tilde. -/
theorem plain_append (h : IsItems text) {x : List Char} (hx : ∀ c ∈ x, c ∉ specials)
    (htext : text.head? ≠ some '~') : IsItems (x ++ text) := by
  by_cases hne : x = []
  · rw [hne]
    exact h
  · obtain ⟨items, hitems⟩ := h
    refine ⟨.plain x :: items, hitems.cons ⟨hne, hx⟩ fun j hj => ?_⟩
    exact Item.apart_plain (by rwa [hitems.head?_write hj])

/-- A reduplicant behind its tilde, in front of a character that ends it. -/
theorem reduplLeft_append (h : IsItems text) {x : List Char} (hx : IsPlain x)
    (htext : ∀ c ∈ text.head?, c ∈ specials) : IsItems ('~' :: x ++ text) := by
  obtain ⟨items, hitems⟩ := h
  refine ⟨.reduplLeft x :: items, hitems.cons hx fun j hj => ?_⟩
  have hj' := hitems.proper j (List.mem_of_mem_head? hj)
  rw [Item.apart_reduplLeft_iff hj', hitems.head?_write hj]
  exact htext

end IsItems

/-- If a character is read behind plain text, and what is then open is part of items, so are the
text and the character. -/
theorem isItems_of_plainStep {x rest : List Char} {c : Char} {made : List FlexPart}
    {after : Pending} (h : plainStep x c = .ok (made, after)) (hx : ∀ c ∈ x, c ∉ specials)
    (hrest : after.IsOpen → IsItems (after.write ++ rest)) : IsItems (x ++ c :: rest) := by
  unfold plainStep at h
  split at h
  -- A boundary and a bar are items by themselves.
  · obtain ⟨-, rfl⟩ := Prod.mk.inj (Except.ok.inj h)
    have hboundary := (hrest (List.forall_mem_nil _)).cons (i := .boundary) trivial fun _ => trivial
    exact hboundary.plain_append hx (by simp [Item.write])
  · obtain ⟨-, rfl⟩ := Prod.mk.inj (Except.ok.inj h)
    have hbar := (hrest (List.forall_mem_nil _)).cons (i := .bar) trivial fun _ => trivial
    exact hbar.plain_append hx (by simp [Item.write])
  -- An opening bracket begins one that is not a reduplicant, so the text can be in front of it.
  · obtain ⟨-, rfl⟩ := Prod.mk.inj (Except.ok.inj h)
    exact (hrest List.not_mem_nil).plain_append hx (by simp [Pending.write])
  · obtain ⟨-, rfl⟩ := Prod.mk.inj (Except.ok.inj h)
    exact (hrest List.not_mem_nil).plain_append hx (by simp [Pending.write])
  -- A tilde belongs to the text if there is some, and begins an item otherwise.
  · split at h
    · rename_i hnil
      obtain ⟨-, rfl⟩ := Prod.mk.inj (Except.ok.inj h)
      rw [List.isEmpty_iff.1 hnil]
      exact hrest (List.forall_mem_nil _)
    · rename_i hne
      obtain ⟨-, rfl⟩ := Prod.mk.inj (Except.ok.inj h)
      have hproper : (Item.reduplRight x).IsProper := ⟨by simpa using hne, hx⟩
      have hredupl := (hrest (List.forall_mem_nil _)).cons hproper fun _ => trivial
      simpa [Item.write, Pending.write] using hredupl
  · exact absurd h (by simp)
  · exact absurd h (by simp)
  -- Any other character makes the text longer.
  · rename_i hdot hbar hsquare hangle htilde hsquare' hangle'
    obtain ⟨-, rfl⟩ := Prod.mk.inj (Except.ok.inj h)
    have hc : c ∉ specials := by
      simpa [specials] using ⟨hdot, hbar, hsquare, hsquare', hangle, hangle', htilde⟩
    have hopen : (Pending.plain (x ++ [c])).IsOpen :=
      List.forall_mem_append.2 ⟨hx, List.forall_mem_singleton.2 hc⟩
    simpa [Pending.write] using hrest hopen

/-- If a character is read behind an opening bracket, and what is then open is part of items, so are
the bracket, what stands behind it and the character. -/
theorem isItems_of_bracketStep (pending : List Char → Pending) (part : List Char → FlexPart)
    (item : List Char → Item) {opening closing : Char}
    (hinner : ∀ before c, c ≠ closing → step (pending before) c = .ok ([], pending (before ++ [c])))
    (hempty : step (pending []) closing = .error .emptyBrackets)
    (hclose : ∀ x, x ≠ [] → step (pending x) closing = .ok ([part x], .plain []))
    (hopen : ∀ x, (pending x).IsOpen ↔ closing ∉ x)
    (hpending : ∀ x, (pending x).write = opening :: x)
    (hproper : ∀ x, (item x).IsProper ↔ x ≠ [] ∧ closing ∉ x)
    (hitem : ∀ x, (item x).write = opening :: x ++ [closing]) (hapart : ∀ x j, (item x).Apart j)
    {x rest : List Char} {c : Char} {made : List FlexPart} {after : Pending}
    (h : step (pending x) c = .ok (made, after)) (hx : (pending x).IsOpen)
    (hrest : after.IsOpen → IsItems (after.write ++ rest)) :
    IsItems ((pending x).write ++ c :: rest) := by
  rw [hpending]
  by_cases hc : c = closing
  · subst c
    by_cases hne : x = []
    · rw [hne, hempty] at h
      exact absurd h (by simp)
    · -- The bracket completes an item, and nothing is open behind it.
      rw [hclose x hne] at h
      obtain ⟨-, rfl⟩ := Prod.mk.inj (Except.ok.inj h)
      have hitems := (hrest (List.forall_mem_nil _)).cons
        ((hproper x).2 ⟨hne, (hopen x).1 hx⟩) (hapart x)
      simpa [hitem, Pending.write] using hitems
  · rw [hinner x c hc] at h
    obtain ⟨-, rfl⟩ := Prod.mk.inj (Except.ok.inj h)
    have hlonger : closing ∉ x ++ [c] := fun hmem =>
      (List.mem_append.1 hmem).elim ((hopen x).1 hx) fun hmem => hc (List.mem_singleton.1 hmem).symm
    simpa [hpending] using hrest ((hopen _).2 hlonger)

/-- If a character is read, and what is then open is part of items, so are what was open before and
the character. -/
theorem isItems_of_step {before after : Pending} {c : Char} {made : List FlexPart}
    {rest : List Char} (h : step before c = .ok (made, after)) (hbefore : before.IsOpen)
    (hrest : after.IsOpen → IsItems (after.write ++ rest)) :
    IsItems (before.write ++ c :: rest) := by
  cases before with
  | plain x => exact isItems_of_plainStep h hbefore hrest
  | square x =>
    exact isItems_of_bracketStep .square squarePart .square (fun _ _ hc => if_neg hc) rfl
      (fun _ hne => by simp [step, hne]) (fun _ => Iff.rfl) (fun _ => rfl) (fun _ => Iff.rfl)
      (fun _ => rfl) (fun _ _ => trivial) h hbefore hrest
  | angle x =>
    exact isItems_of_bracketStep .angle anglePart .angle (fun _ _ hc => if_neg hc) rfl
      (fun _ hne => by simp [step, hne]) (fun _ => Iff.rfl) (fun _ => rfl) (fun _ => Iff.rfl)
      (fun _ => rfl) (fun _ _ => trivial) h hbefore hrest
  | redupl x =>
    simp only [step] at h
    split at h
    · rename_i hc
      split at h
      · exact absurd h (by simp)
      · rename_i hne
        -- The character that ends the reduplicant is read as one behind no text.
        obtain ⟨⟨parts, pending⟩, hplain, h⟩ := bind_eq_ok_iff.1 h
        obtain ⟨-, rfl⟩ := Prod.mk.inj (Except.ok.inj h)
        have hitems : IsItems (c :: rest) :=
          isItems_of_plainStep hplain (List.forall_mem_nil _) hrest
        have hx : IsPlain x := ⟨by simpa using hne, hbefore⟩
        exact hitems.reduplLeft_append hx (by simpa using endsText_iff.1 hc)
    · rename_i hc
      obtain ⟨-, rfl⟩ := Prod.mk.inj (Except.ok.inj h)
      have hc' : c ∉ specials := fun hmem => hc (endsText_iff.2 hmem)
      have hopen : (Pending.redupl (x ++ [c])).IsOpen :=
        List.forall_mem_append.2 ⟨hbefore, List.forall_mem_singleton.2 hc'⟩
      simpa [Pending.write] using hrest hopen

/-- What is open at the end of a flex that is read is an item. -/
theorem isItems_of_finish {pending : Pending} {parts : List FlexPart}
    (h : finish pending = .ok parts) (hopen : pending.IsOpen) : IsItems pending.write := by
  cases pending with
  | plain x => simpa [Pending.write] using IsItems.nil.plain_append hopen (by simp)
  | square x | angle x => exact absurd h (by simp [finish])
  | redupl x =>
    simp only [finish] at h
    split at h
    · exact absurd h (by simp)
    · rename_i hne
      have hx : IsPlain x := ⟨by simpa using hne, hopen⟩
      simpa [Pending.write] using IsItems.nil.reduplLeft_append hx (by simp)

/-- What is read is a sequence of items. -/
theorem isItems_of_scan {pending : Pending} {text : List Char} {parts : List FlexPart}
    (h : scan pending text = .ok parts) (hopen : pending.IsOpen) :
    IsItems (pending.write ++ text) := by
  induction text generalizing pending parts with
  | nil =>
    rw [List.append_nil]
    exact isItems_of_finish h hopen
  | cons c rest ih =>
    rw [scan] at h
    obtain ⟨⟨made, after⟩, hstep, h⟩ := bind_eq_ok_iff.1 h
    obtain ⟨more, hscan, -⟩ := bind_eq_ok_iff.1 h
    exact isItems_of_step hstep hopen fun hafter => ih hscan hafter

/-! ## Flexes -/

/-- The sign for preceding the stem if a flex begins with it. -/
def front (flex : List Char) : List Char :=
  if selfMark.isPrefixOf flex then selfMark else []

theorem any_isBoundary_marker_self (parts : List FlexPart) :
    (FlexPart.marker .startWithSelf :: parts).any (·.role.isBoundary) =
      parts.any (·.role.isBoundary) :=
  rfl

/-- A boundary is put behind the sign for preceding the stem. -/
theorem write_withBoundary_self (parts : List FlexPart) :
    (withBoundary (.marker .startWithSelf :: parts)).flatMap FlexPart.write =
      selfMark ++ (if parts.any (·.role.isBoundary) then [] else ['.']) ++
        parts.flatMap FlexPart.write := by
  unfold withBoundary
  rw [any_isBoundary_marker_self]
  split
  · simp [FlexPart.write, FlexPart.marker]
  · simp [FlexPart.write, FlexPart.marker]

/-- Without that sign it is put in front. -/
theorem write_withBoundary {parts : List FlexPart} (h : ∀ p ∈ parts, p.role ≠ .startWithSelf) :
    (withBoundary parts).flatMap FlexPart.write =
      (if parts.any (·.role.isBoundary) then [] else ['.']) ++ parts.flatMap FlexPart.write := by
  unfold withBoundary
  split
  · rfl
  · cases parts with
    | nil => rfl
    | cons p parts =>
      dsimp only
      rw [if_neg (h p (List.mem_cons_self ..))]
      rfl

theorem writtenParts_selfMark_append (rest : List Char) :
    writtenParts (selfMark ++ rest) =
      (scan (.plain []) rest).map (.marker .startWithSelf :: ·) := by
  have hfront : selfMark.isPrefixOf (selfMark ++ rest) = true :=
    List.isPrefixOf_iff_prefix.2 (List.prefix_append ..)
  rw [writtenParts, if_pos hfront, List.drop_left]
  rfl

theorem front_selfMark_append (rest : List Char) : front (selfMark ++ rest) = selfMark :=
  if_pos (List.isPrefixOf_iff_prefix.2 (List.prefix_append ..))

/-- A flex has the sign for preceding the stem in front, or it is read as it is. -/
theorem front_cases (flex : List Char) :
    (∃ rest, flex = selfMark ++ rest) ∨
      front flex = [] ∧ writtenParts flex = scan (.plain []) flex := by
  by_cases hfront : selfMark.isPrefixOf flex = true
  · obtain ⟨rest, rfl⟩ := List.isPrefixOf_iff_prefix.1 hfront
    exact .inl ⟨rest, rfl⟩
  · exact .inr ⟨if_neg hfront, if_neg hfront⟩

/-- Whatever is in the notation is read. -/
theorem exists_writtenParts_of_spells {lead : List Char} {items : List Item} {flex : List Char}
    (h : Spells Item.Apart lead items flex) : ∃ parts, writtenParts flex = .ok parts := by
  obtain ⟨hlead, rest, rfl, hitems⟩ := h
  obtain ⟨parts, hscan, -⟩ :=
    exists_scan_of_writes [] hitems fun hne => absurd rfl hne
  rcases hlead with rfl | rfl
  · rw [List.nil_append]
    rcases front_cases rest with ⟨more, rfl⟩ | ⟨-, hwritten⟩
    · -- The sign in front is an item in square brackets here, and is read as one.
      have hself : (Item.square "self".toList).IsProper := ⟨by decide, by decide⟩
      have hfits : (Item.square "self".toList).FitsBetween [] more := ⟨nofun, nofun⟩
      have hread := Item.scan_write hself hfits
      have hmark : (Item.square "self".toList).write = selfMark := by decide
      rw [hmark, hscan] at hread
      obtain ⟨behind, hbehind, -⟩ := map_eq_ok_iff.1 hread.symm
      rw [writtenParts_selfMark_append]
      exact ⟨_, map_eq_ok_iff.2 ⟨behind, hbehind, rfl⟩⟩
    · exact ⟨parts, hwritten.trans hscan⟩
  · rw [writtenParts_selfMark_append]
    exact ⟨_, map_eq_ok_iff.2 ⟨parts, hscan, rfl⟩⟩

/-- Whatever is read is in the notation, with all of the sign for preceding the stem in front. -/
theorem exists_spells_of_writtenParts {flex : List Char} {parts : List FlexPart}
    (h : writtenParts flex = .ok parts) : ∃ items, Spells Item.Apart (front flex) items flex := by
  rcases front_cases flex with ⟨rest, rfl⟩ | ⟨hfront, hwritten⟩
  · rw [writtenParts_selfMark_append] at h
    obtain ⟨made, hscan, -⟩ := map_eq_ok_iff.1 h
    obtain ⟨items, hitems⟩ := isItems_of_scan hscan (List.forall_mem_nil _)
    rw [front_selfMark_append]
    exact ⟨items, .inr rfl, rest, rfl, hitems⟩
  · rw [hwritten] at h
    obtain ⟨items, hitems⟩ := isItems_of_scan h (List.forall_mem_nil _)
    rw [hfront]
    exact ⟨items, .inl rfl, flex, rfl, hitems⟩

/-- The parts written down are the items without bars, and with a boundary in front if there is
none. -/
theorem write_withBoundary_of_writtenParts {flex : List Char} {parts : List FlexPart}
    {items : List Item} (h : writtenParts flex = .ok parts)
    (hitems : Spells Item.Apart (front flex) items flex) :
    (withBoundary parts).flatMap FlexPart.write =
      front flex ++ (if items.any Item.isBoundary then [] else ['.']) ++ withoutBars items := by
  obtain ⟨-, rest, hflex, hwrites⟩ := hitems
  obtain ⟨made, hscan, hwrite, hany⟩ :=
    exists_scan_of_writes [] hwrites fun hne => absurd rfl hne
  rw [List.nil_append] at hwrite
  rcases front_cases flex with ⟨more, rfl⟩ | ⟨hfront, hwritten⟩
  · rw [front_selfMark_append] at hflex ⊢
    obtain rfl := List.append_cancel_left hflex
    rw [writtenParts_selfMark_append, hscan] at h
    obtain rfl := Except.ok.inj h
    rw [write_withBoundary_self, hwrite, hany]
  · rw [hfront, List.nil_append] at hflex
    rw [hwritten, hflex, hscan] at h
    obtain rfl := Except.ok.inj h
    rw [write_withBoundary (ne_self_of_scan hscan), hwrite, hany, hfront, List.nil_append]

/-- **The flexes that are read.**  A flex is read if and only if it `Spells` something in the
notation: a sequence of items, perhaps behind the sign for preceding the stem, in which neither a
tilde nor the text behind one could belong to the item in front (`Item.Apart`). The parts, written
down again by `FlexPart.write`, are the flex without its bars, and with a stem boundary at the start
or behind the sign if it has none. There always is a boundary, and the sign is at most in front
(`SelfFirst`). -/
theorem read_iff_spells (flex : String) :
    ((∃ parts, read flex = .ok parts) ↔
      ∃ lead items, Spells Item.Apart lead items flex.toList) ∧
    ∀ parts, read flex = .ok parts →
      (∃ items, Spells Item.Apart (front flex.toList) items flex.toList) ∧
      (∀ items, Spells Item.Apart (front flex.toList) items flex.toList →
        parts.flatMap FlexPart.write =
          front flex.toList ++ (if items.any Item.isBoundary then [] else ['.']) ++
            withoutBars items) ∧
      (∃ p ∈ parts, p.role.isBoundary = true) ∧ SelfFirst parts := by
  refine ⟨⟨?_, ?_⟩, ?_⟩
  · rintro ⟨parts, hread⟩
    obtain ⟨written, hwritten, -⟩ := map_eq_ok_iff.1 hread
    exact ⟨_, exists_spells_of_writtenParts hwritten⟩
  · rintro ⟨lead, items, hitems⟩
    obtain ⟨written, hwritten⟩ := exists_writtenParts_of_spells hitems
    exact ⟨withBoundary written, map_eq_ok_iff.2 ⟨written, hwritten, rfl⟩⟩
  · intro parts hread
    have hself := selfFirst_read hread
    obtain ⟨written, hwritten, rfl⟩ := map_eq_ok_iff.1 hread
    exact ⟨exists_spells_of_writtenParts hwritten,
      fun items hitems => write_withBoundary_of_writtenParts hwritten hitems,
      exists_boundary_of_withBoundary written, hself⟩

theorem read_iff_spells_sampleFlex :
    ∃ parts, read "[self]un|<a>t~" = .ok parts ∧
      parts.flatMap FlexPart.write = "[self].un<a>t~".toList := by
  have hitems : Spells Item.Apart selfMark
      [.plain "un".toList, .bar, .angle "a".toList, .reduplRight "t".toList]
      "[self]un|<a>t~".toList := by
    refine ⟨.inr rfl, _, rfl, ?_, ?_, by decide⟩
    · simp only [List.forall_mem_cons]
      exact ⟨⟨by decide, by decide⟩, trivial, ⟨by decide, by decide⟩, ⟨by decide, by decide⟩,
        List.forall_mem_nil _⟩
    · simp [Item.Apart]
  obtain ⟨parts, hread⟩ := (read_iff_spells "[self]un|<a>t~").1.2 ⟨_, _, hitems⟩
  refine ⟨parts, hread, ?_⟩
  rw [((read_iff_spells "[self]un|<a>t~").2 parts hread).2.1 _ hitems]
  decide

/-- Text behind a tilde goes as far as it can.  So `~a` and `b~` side by side are not read, although
neither stands behind plain text. -/
theorem not_read_adjacentReduplicants :
    ¬((∃ parts, read "~ab~" = .ok parts) ↔
      ∃ lead items, Spells Item.Separated lead items "~ab~".toList) := by
  intro h
  have hproper {c : Char} (hc : c ∉ specials) : IsPlain [c] :=
    ⟨List.cons_ne_nil c [], List.forall_mem_singleton.2 hc⟩
  have hwrites : Writes Item.Separated [.reduplLeft ['a'], .reduplRight ['b']] "~ab~".toList :=
    { proper := List.forall_mem_cons.2
        ⟨hproper (by decide), List.forall_mem_singleton.2 (hproper (by decide))⟩
      follows := by simp [Item.Separated]
      text_eq := by decide }
  obtain ⟨parts, hread⟩ := h.2 ⟨[], _, .inl rfl, _, rfl, hwrites⟩
  have hfault : read "~ab~" = .error .emptyReduplicant := by decide
  exact absurd (hread.symm.trans hfault) nofun

end Flex

end Morphology
