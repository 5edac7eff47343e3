import Mathlib.Data.List.TakeDrop
import Morphology.Pattern.Template
import Morphology.Proofs.Text.Replacement

/-!
# What a replacement leaves and what it puts in

The matches that a search finds stand in the text one behind the other.  Replacing them keeps the
text between them, and puts in for each what the replacement text says of it.

## Main definitions

* `Match.referenced`, `Template.Expands` — what a replacement text stands for beside a match
* `InOrder` — matches stand in a text, one behind the other
* `Replaced` — a text with its matches, and the same with something else in their place

## Main statements

* `Template.expands_read` — a replacement text is read and filled in as it is written
* `inOrder_findAll` — all matches in a text stand in order
* `replaced_replaceAll` — what is left of a text with every match replaced
-/

namespace Morphology.Pattern

/-! ## Replacement texts -/

/-- The text that a reference stands for: that of the group with this number, or else of the group
with this name.  A group that took no part in the match is empty, and so is one that there is not.
-/
def Match.referenced (m : Match) (p : Pattern) (text name : List Char) : List Char :=
  match Template.number? name with
  | some i => (m.group? text i).getD []
  | none => ((p.names.lookup (String.ofList name)).bind (m.group? text)).getD []

namespace Template

/-- What a replacement text, as it is written, stands for beside a match. -/
inductive Expands (p : Pattern) (text : List Char) (m : Match) : List Char → List Char → Prop
  | nil : Expands p text m [] []
  | plain {c : Char} {rest out : List Char} (hc : c ≠ '$') (h : Expands p text m rest out) :
      Expands p text m (c :: rest) (c :: out)
  /-- Two dollar signs are one. -/
  | escaped {rest out : List Char} (h : Expands p text m rest out) :
      Expands p text m ('$' :: '$' :: rest) ('$' :: out)
  /-- A reference in braces goes up to the first brace that closes them. -/
  | braced {name rest out : List Char} (hname : '\x7d' ∉ name) (h : Expands p text m rest out) :
      Expands p text m ('$' :: '\x7b' :: (name ++ '\x7d' :: rest)) (m.referenced p text name ++ out)
  /-- Without braces it goes on as long as there are letters, digits and low lines. -/
  | bare {name rest out : List Char} (hne : name ≠ []) (hname : ∀ c ∈ name, isNameChar c = true)
      (hrest : ∀ c ∈ rest.head?, isNameChar c = false) (h : Expands p text m rest out) :
      Expands p text m ('$' :: (name ++ rest)) (m.referenced p text name ++ out)
  /-- A dollar sign in front of anything else stands for itself. -/
  | lone {rest out : List Char} (hrest : ∀ c ∈ rest.head?, c ≠ '$' ∧ isNameChar c = false)
      (hopen : ∀ name, rest = '\x7b' :: name → '\x7d' ∉ name) (h : Expands p text m rest out) :
      Expands p text m ('$' :: rest) ('$' :: out)

variable {p : Pattern} {text s : List Char} {m : Match}

theorem pieceText_reference (name : List Char) :
    pieceText p text m (reference name) = m.referenced p text name := by
  unfold reference Match.referenced
  cases number? name <;> rfl

/-- What `reference?` reads is written in braces, or without. -/
theorem exists_reference {piece : Piece} {rest : List Char}
    (h : reference? s = some (piece, rest)) :
    ∃ name, piece = reference name ∧
      ('\x7d' ∉ name ∧ s = '\x7b' :: (name ++ '\x7d' :: rest) ∨
        name ≠ [] ∧ (∀ c ∈ name, isNameChar c = true) ∧
          (∀ c ∈ rest.head?, isNameChar c = false) ∧ s = name ++ rest) := by
  unfold reference? at h
  -- In braces: up to the first brace that closes them.
  split at h
  · split at h
    · rename_i name close tail hspan
      obtain ⟨rfl, rfl⟩ := Prod.mk.inj (Option.some.inj h)
      obtain ⟨rfl, hname, hclose⟩ := Text.span_spec hspan
      obtain rfl : close = '\x7d' := by simpa using hclose close rfl
      refine ⟨name, rfl, .inl ⟨fun hmem => ?_, rfl⟩⟩
      simpa using hname _ hmem
    · exact absurd h nofun
  · -- Without: as far as a name goes.
    split at h
    · exact absurd h nofun
    · rename_i name tail hne hspan
      obtain ⟨rfl, rfl⟩ := Prod.mk.inj (Option.some.inj h)
      obtain ⟨rfl, hname, hrest⟩ := Text.span_spec hspan
      exact ⟨name, rfl, .inr ⟨hne, hname, hrest, rfl⟩⟩

/-- Behind a dollar sign that begins no reference there is neither a name nor a pair of braces. -/
theorem reference?_eq_none (h : reference? s = none) :
    (∀ c ∈ s.head?, isNameChar c = false) ∧ ∀ name, s = '\x7b' :: name → '\x7d' ∉ name := by
  unfold reference? at h
  split at h
  · split at h
    · exact absurd h nofun
    · rename_i s name hspan
      obtain ⟨rfl, hname, -⟩ := Text.span_spec hspan
      -- A brace is no character of a name, and the one that opens is not closed.
      refine ⟨by simp [isNameChar], fun name' heq hmem => ?_⟩
      obtain rfl := (List.cons.inj heq).2
      rw [List.append_nil] at hmem
      simpa using hname _ hmem
  · rename_i hopen
    split at h
    · rename_i tail hspan
      obtain ⟨rfl, -, hrest⟩ := Text.span_spec hspan
      exact ⟨hrest, fun name heq => absurd heq (hopen name)⟩
    · exact absurd h nofun

theorem expands_readFrom {fuel : Nat} (hfuel : s.length ≤ fuel) :
    Expands p text m s ((readFrom fuel s).expand p text m) := by
  -- The cases are the ways to read the front of the text, as in `readFrom`.
  fun_induction readFrom fuel s with
  | case1 s =>
    obtain rfl := List.eq_nil_of_length_eq_zero (Nat.le_zero.1 hfuel)
    exact .nil
  | case2 => exact .nil
  | case3 fuel rest ih =>
    rw [List.length_cons, List.length_cons] at hfuel
    exact .escaped (ih (by omega))
  | case4 fuel s hplain piece rest hreference ih =>
    obtain ⟨name, rfl, ⟨hname, rfl⟩ | ⟨hne, hname, hrest, rfl⟩⟩ := exists_reference hreference
    · -- In braces.
      simp only [List.length_cons, List.length_append] at hfuel
      rw [expand, List.flatMap_cons, pieceText_reference]
      exact .braced hname (ih (by omega))
    · -- Without braces.
      simp only [List.length_cons, List.length_append] at hfuel
      rw [expand, List.flatMap_cons, pieceText_reference]
      exact .bare hne hname hrest (ih (by omega))
  | case5 fuel rest hplain hnone ih =>
    rw [List.length_cons] at hfuel
    obtain ⟨hname, hopen⟩ := reference?_eq_none hnone
    -- Another dollar sign would have been read together with the first.
    refine .lone (fun c hc => ⟨?_, hname c hc⟩) hopen (ih (by omega))
    rintro rfl
    cases rest with
    | nil => exact absurd hc nofun
    | cons c rest => exact hplain rest (by rw [Option.some.inj hc])
  | case6 fuel c rest hc ih =>
    rw [List.length_cons] at hfuel
    exact .plain hc (ih (by omega))

/-- A replacement text is read and filled in as it is written. -/
theorem expands_read (p : Pattern) (text : List Char) (m : Match) (written : String) :
    Expands p text m written.toList ((read written).expand p text m) :=
  expands_readFrom (Nat.le_of_eq (String.length_toList ..))

end Template

/-! ## Where matches lie -/

/-- The places that a thread remembers lie in a stretch of the text. -/
def Thread.Within (first last : Nat) (t : Thread) : Prop :=
  ∀ mark ∈ t.marks, first ≤ mark.2 ∧ mark.2 ≤ last

/-- A match lies in a stretch of the text. -/
structure Match.Within (first last : Nat) (m : Match) : Prop where
  first_le : first ≤ m.first
  le : m.first ≤ m.last
  le_last : m.last ≤ last

variable {first last last' pos : Nat} {t : Thread}

theorem Thread.Within.mono (h : t.Within first last) (hle : last ≤ last') :
    t.Within first last' := by
  intro mark hmark
  obtain ⟨hfirst, hlast⟩ := h mark hmark
  exact ⟨hfirst, Nat.le_trans hlast hle⟩

theorem Thread.Within.mark (h : t.Within first pos) (hfirst : first ≤ pos) (slot next : Nat) :
    Thread.Within first pos ⟨next, (slot, pos) :: t.marks⟩ := by
  intro mark hmark
  cases List.mem_cons.1 hmark with
  | inl heq => exact heq ▸ ⟨hfirst, Nat.le_refl pos⟩
  | inr hmem => exact h mark hmem

theorem Match.Within.mono {m : Match} (h : m.Within first last) (hle : last ≤ last') :
    m.Within first last' :=
  ⟨h.first_le, h.le, Nat.le_trans h.le_last hle⟩

namespace Program

variable {p : Program} {place : Place} {fuel : Nat} {seen : Array Bool}
  {onward ts : List Thread} {found : Option Match} {m : Match} {before : Option Char}
  {text rest : List Char}

/-- A thread that is followed remembers no other place than where it is. -/
theorem within_follow (p : Program) (place : Place) (fuel : Nat) (seen : Array Bool)
    (hfirst : first ≤ pos) (honward : ∀ t ∈ onward, t.Within first pos)
    (hts : ∀ t ∈ ts, t.Within first pos) :
    (∀ t ∈ (p.follow place pos fuel seen onward ts).1, t.Within first pos) ∧
      ∀ t ∈ (p.follow place pos fuel seen onward ts).2, t.Within first pos := by
  -- The cases are the instructions at which the first of the threads may be, as in `follow`.
  fun_induction follow p place pos fuel seen onward ts with
  | case1 | case2 =>
    exact ⟨fun t ht => honward t (List.mem_reverse.1 ht), nofun⟩
  | case3 _ _ _ _ _ _ ih =>
    exact ih honward (List.forall_mem_cons.1 hts).2
  -- A thread that reads on goes on if the instruction takes the character, and drops out otherwise.
  | case4 fuel seen onward t rest hseen _ s next hat ih =>
    obtain ⟨ht, hrest⟩ := List.forall_mem_cons.1 hts
    refine ih (fun u hu => ?_) hrest
    split at hu
    · cases List.mem_cons.1 hu with
      | inl heq => exact heq ▸ ht
      | inr hmem => exact honward u hmem
    · exact honward u hu
  -- An assertion lets the thread pass or drops it.
  | case5 fuel seen onward t rest hseen _ a next hat ih =>
    obtain ⟨ht, hrest⟩ := List.forall_mem_cons.1 hts
    refine ih honward fun u hu => ?_
    split at hu
    · cases List.mem_cons.1 hu with
      | inl heq => exact heq ▸ ht
      | inr hmem => exact hrest u hmem
    · exact hrest u hu
  -- A mark is set at the place where the search is.
  | case6 fuel seen onward t rest hseen _ slot next hat ih =>
    obtain ⟨ht, hrest⟩ := List.forall_mem_cons.1 hts
    exact ih honward (List.forall_mem_cons.2 ⟨ht.mark hfirst slot next, hrest⟩)
  | case7 fuel seen onward t rest hseen _ left right hat ih =>
    obtain ⟨ht, hrest⟩ := List.forall_mem_cons.1 hts
    exact ih honward (List.forall_mem_cons.2 ⟨ht, List.forall_mem_cons.2 ⟨ht, hrest⟩⟩)
  | case8 fuel seen onward t rest hseen hat =>
    refine ⟨fun u hu => honward u (List.mem_reverse.1 hu), fun u hu => ?_⟩
    exact Option.some.inj hu ▸ (List.forall_mem_cons.1 hts).1

/-- A match begins where its thread remembers, and ends where it accepts. -/
theorem within_toMatch (hfirst : first ≤ pos) (ht : t.Within first pos) :
    (toMatch pos t).Within first pos := by
  unfold toMatch
  cases hstart : t.marks.lookup startSlot with
  | none => exact ⟨hfirst, Nat.le_refl pos, Nat.le_refl pos⟩
  | some start =>
    obtain ⟨front, back, hmarks, -⟩ := List.lookup_eq_some_iff.1 hstart
    obtain ⟨hstart, hpos⟩ := ht (startSlot, start) (by rw [hmarks]; simp)
    exact ⟨hstart, hpos, Nat.le_refl pos⟩

theorem within_advance (p : Program) (place : Place) (hfirst : first ≤ pos)
    (hts : ∀ t ∈ ts, t.Within first pos) :
    (∀ t ∈ (p.advance place pos ts).1, t.Within first pos) ∧
      ∀ t ∈ (p.advance place pos ts).2, t.Within first pos :=
  within_follow p place _ _ hfirst (fun _ ht => absurd ht List.not_mem_nil) hts

theorem within_stepFrom (p : Program) (place : Place) (hfirst : first ≤ pos)
    (hfound : ∀ m ∈ found, m.Within first pos) (hts : ∀ t ∈ ts, t.Within first pos) :
    (∀ t ∈ (p.stepFrom place pos found ts).1, t.Within first pos) ∧
      ∀ m ∈ (p.stepFrom place pos found ts).2, m.Within first pos := by
  -- While nothing is found a new thread starts here.
  have hstarted : ∀ t ∈ (if found.isNone then ts ++ [⟨p.entry, [(startSlot, pos)]⟩] else ts),
      t.Within first pos := by
    intro t ht
    split at ht
    · cases List.mem_append.1 ht with
      | inl hmem => exact hts t hmem
      | inr hnew =>
        obtain rfl := List.mem_singleton.1 hnew
        exact Thread.Within.mark (t := ⟨p.entry, []⟩) nofun hfirst startSlot p.entry
    · exact hts t ht
  unfold stepFrom
  obtain ⟨honward, haccepted⟩ := within_advance p place hfirst hstarted
  refine ⟨honward, fun m hm => ?_⟩
  dsimp only at hm
  -- A thread that accepts here gives the match, and without one the match so far stays.
  generalize (p.advance place pos _).2 = accepted at hm haccepted
  cases accepted with
  | none => exact hfound m hm
  | some t =>
    obtain rfl := Option.some.inj hm
    exact within_toMatch hfirst (haccepted t rfl)

/-- A search finds nothing outside the rest of the text. -/
theorem within_searchFrom (hfirst : first ≤ pos) (hfound : ∀ m ∈ found, m.Within first pos)
    (hts : ∀ t ∈ ts, t.Within first pos) :
    ∀ m ∈ p.searchFrom before pos found ts rest, m.Within first (pos + rest.length) := by
  induction rest generalizing before pos found ts with
  | nil => exact (within_stepFrom p _ hfirst hfound hts).2
  | cons c rest ih =>
    obtain ⟨honward, hmatch⟩ := within_stepFrom p ⟨before, some c⟩ hfirst hfound hts
    have hlength : pos + (c :: rest).length = pos + 1 + rest.length := by
      rw [List.length_cons]
      omega
    rw [searchFrom, hlength]
    dsimp only
    split
    · exact fun m hm => (hmatch m hm).mono (by omega)
    · exact ih (by omega) (fun m hm => (hmatch m hm).mono (by omega))
        fun t ht => (honward t ht).mono (by omega)

theorem within_matchFrom? (h : p.matchFrom? text pos = some m) : m.Within pos text.length := by
  unfold matchFrom? at h
  split at h
  · rename_i hpos
    have hwithin := within_searchFrom (Nat.le_refl pos)
      (fun _ hm => absurd hm (Option.not_mem_none _))
      (fun _ ht => absurd ht List.not_mem_nil) m h
    rwa [List.length_drop, Nat.add_sub_cancel' hpos] at hwithin
  · exact absurd h nofun

end Program

/-- Matches follow each other in a text of a given length, from a place on. -/
inductive InOrder (length : Nat) : (pos : Nat) → List Match → Prop
  | nil (pos : Nat) : InOrder length pos []
  | cons {pos : Nat} {m : Match} {ms : List Match} (hm : m.Within pos length)
      (hrest : InOrder length m.last ms) : InOrder length pos (m :: ms)

theorem InOrder.mono {length pos pos' : Nat} {ms : List Match} (h : InOrder length pos ms)
    (hle : pos' ≤ pos) : InOrder length pos' ms := by
  cases h with
  | nil => exact .nil pos'
  | cons hm hrest => exact .cons ⟨Nat.le_trans hle hm.first_le, hm.le, hm.le_last⟩ hrest

theorem Program.inOrder_matchesFrom (p : Program) (text : List Char) (fuel pos : Nat)
    (lastEnd : Option Nat) : InOrder text.length pos (p.matchesFrom text fuel pos lastEnd) := by
  induction fuel generalizing pos lastEnd with
  | zero => exact .nil pos
  | succ fuel ih =>
    rw [matchesFrom]
    cases hmatch : p.matchFrom? text pos with
    | none => exact .nil pos
    | some m =>
      dsimp only
      split
      · exact (ih (pos + 1) lastEnd).mono (Nat.le_succ pos)
      · exact .cons (within_matchFrom? hmatch) (ih m.last (some m.last))

/-- The matches that are found follow each other. -/
theorem inOrder_findAll (p : Pattern) (text : List Char) :
    InOrder text.length 0 (p.findAll text) :=
  p.program.inOrder_matchesFrom ..

/-! ## What is put in their place -/

/-- A text with its matches, and the same with what a replacement text stands for in the place of
each; what is between the matches stays.  In `front` is the text that is done with, from which the
matches count their places. -/
inductive Replaced (p : Pattern) (written text : List Char) :
    (front : List Char) → List Match → List Char → List Char → Prop
  | rest (front rest : List Char) : Replaced p written text front [] rest rest
  | next {front gap found rest new out : List Char} {m : Match} {ms : List Match}
      (hfirst : m.first = (front ++ gap).length) (hlast : m.last = (front ++ gap ++ found).length)
      (hnew : Template.Expands p text m written new)
      (hrest : Replaced p written text (front ++ gap ++ found) ms rest out) :
      Replaced p written text front (m :: ms) (gap ++ found ++ rest) (gap ++ new ++ out)

/-- A match divides the text behind a place. -/
theorem Match.Within.exists_cut {m : Match} {text front rest : List Char}
    (h : m.Within front.length text.length) (htext : text = front ++ rest) :
    ∃ gap found tail, rest = gap ++ found ++ tail ∧ m.first = (front ++ gap).length ∧
      m.last = (front ++ gap ++ found).length := by
  obtain ⟨hfirst, hle, hlast⟩ := h
  rw [htext, List.length_append] at hlast
  refine ⟨rest.take (m.first - front.length),
    (rest.drop (m.first - front.length)).take (m.last - m.first), rest.drop (m.last - front.length),
    ?_, ?_, ?_⟩
  · -- The end of the match is as far behind its beginning as the two are apart.
    have hdrop : rest.drop (m.last - front.length) =
        (rest.drop (m.first - front.length)).drop (m.last - m.first) := by
      rw [List.drop_drop]
      congr 1
      omega
    rw [List.append_assoc, hdrop, List.take_append_drop, List.take_append_drop]
  · rw [List.length_append, List.length_take]
    omega
  · rw [List.length_append, List.length_append, List.length_take, List.length_take,
      List.length_drop]
    omega

theorem replaced_replaceFrom {p : Pattern} {text front rest : List Char} {ms : List Match}
    (written : String) (htext : text = front ++ rest) (h : InOrder text.length front.length ms) :
    Replaced p written.toList text front ms rest
      (replaceFrom p (Template.read written) text front.length ms) := by
  induction ms generalizing front rest with
  | nil =>
    rw [replaceFrom, htext, List.drop_left]
    exact .rest front rest
  | cons m ms ih =>
    cases h with
    | cons hm hrest =>
      obtain ⟨gap, found, tail, rfl, hgap, hfound⟩ := hm.exists_cut htext
      have hslice : slice text front.length m.first = gap := by
        rw [slice, htext, List.drop_left, hgap, List.length_append, Nat.add_sub_cancel_left,
          List.append_assoc, List.take_left]
      rw [replaceFrom, hslice]
      rw [hfound] at hrest ⊢
      refine .next hgap hfound (Template.expands_read p text m written) (ih ?_ hrest)
      rw [htext]
      simp only [List.append_assoc]

/-- What `replaceAll` makes of a text. -/
theorem replaced_replaceAll (p : Pattern) (written text : String) :
    Replaced p written.toList text.toList [] (p.findAll text.toList) text.toList
      (p.replaceAll (Template.read written) text).toList := by
  rw [replaceAll, String.toList_ofList]
  exact replaced_replaceFrom written rfl (inOrder_findAll p text.toList)

end Morphology.Pattern
