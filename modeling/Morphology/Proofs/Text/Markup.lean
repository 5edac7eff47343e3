import Morphology.Proofs.Text.Replacement
import Morphology.Text.Basic

/-!
# Entities read back

A text with entities in place of characters is read back by one replacement after the other.  Each
of them meets whole entities and characters that stand for themselves, so that it brings one
character back everywhere and leaves the rest alone.

## Main definitions

* `markupChars` — the characters that are written as entities
* `writtenIn` — what stands for a character while only some characters are written as entities

## Main statements

* `replaced_writtenIn` — a replacement brings back one character
* `unescapeMarkup_escapeMarkup` — the text behind the entities is the text that was escaped
* `mem_escapeMarkup` — an escaped text has no markup
* `entities_undone` — the entities are the only markup of an escaped text, and they are undone
-/

namespace Morphology.Text

/-- The characters that are written as entities, in the order in which they are brought back. -/
def markupChars : List Char := ['<', '>', '"', '\'', '&']

/-- What stands for a character in an escaped text. -/
def written (c : Char) : List Char :=
  ((entity? c).getD c.toString).toList

theorem toList_escapeMarkup (s : String) : (escapeMarkup s).toList = s.toList.flatMap written := by
  rw [escapeMarkup, String.toList_join, List.flatMap_map]
  rfl

/-- A character that needs no entity stands for itself. -/
theorem written_of_not_mem {c : Char} (h : c ∉ markupChars) : written c = [c] := by
  simp only [markupChars, List.mem_cons, List.not_mem_nil, not_or] at h
  have hnone : entity? c = none := by
    unfold entity?
    split <;> simp_all
  simp [written, hnone]

/-! ## Entities brought back -/

/-- What stands for a character while only the characters of `chars` are written as entities. -/
def writtenIn (chars : List Char) (c : Char) : List Char :=
  if c ∈ chars then written c else [c]

theorem writtenIn_markupChars : writtenIn markupChars = written := by
  funext c
  rw [writtenIn]
  split
  · rfl
  · rename_i h
    exact (written_of_not_mem h).symm

theorem flatMap_writtenIn_nil (s : List Char) : s.flatMap (writtenIn []) = s := by
  have hself : writtenIn [] = fun c => [c] := by
    funext c
    simp [writtenIn]
  rw [hself, List.flatMap_singleton']

private theorem passes_entity : ∀ c ∈ markupChars, ∀ d ∈ markupChars, c ≠ d →
    written d ≠ written c ∧ passes (written c) (written d) = true := by
  decide

/-- Replacing one entity brings back one character, as long as ampersands are still `written` as
entities. -/
theorem replaced_writtenIn {c : Char} {chars : List Char}
    (hchars : ∀ d ∈ c :: chars, d ∈ markupChars)
    (hc : c ∉ chars) (hamp : '&' ∈ c :: chars) (s : List Char) :
    replaced (written c) [c] (s.flatMap (writtenIn (c :: chars))) =
      s.flatMap (writtenIn chars) := by
  obtain ⟨hmem, hrest⟩ := List.forall_mem_cons.1 hchars
  have hentity : ∃ name, written c = '&' :: name := by
    have hall : ∀ c ∈ markupChars, (written c).head? = some '&' := by decide
    exact ⟨_, List.eq_cons_of_mem_head? (hall c hmem)⟩
  obtain ⟨name, hname⟩ := hentity
  -- Other characters are written as other entities, or stand for themselves and are no ampersands.
  have hpiece (d : Char) (hd : d ≠ c) :
      writtenIn (c :: chars) d = writtenIn chars d ∧
        writtenIn chars d ≠ written c ∧ passes (written c) (writtenIn chars d) = true := by
    refine ⟨by simp [writtenIn, hd], ?_⟩
    by_cases hin : d ∈ chars
    · -- An entity lets a piece through if it begins within none, which is so for the other
      -- entities.
      simpa [writtenIn, hin] using passes_entity c hmem d (hrest d hin) (Ne.symm hd)
    · have hne : d ≠ '&' := by
        rintro rfl
        rcases List.mem_cons.1 hamp with h | h
        · exact hd h
        · exact hin h
      rw [writtenIn, if_neg hin, hname]
      exact ⟨by simp [hne], passes_of_not_mem (by simpa using Ne.symm hne)⟩
  rw [replaced_flatMap (by simp [hname])]
  · congr 1
    funext d
    -- The character itself is written as the entity that is replaced.
    by_cases hd : d = c
    · subst hd
      simp [writtenIn, hc]
    · obtain ⟨heq, hne, -⟩ := hpiece d hd
      rw [heq, if_neg hne]
  · intro d _
    by_cases hd : d = c
    · exact .inl (by simp [writtenIn, hd])
    · obtain ⟨heq, -, hpasses⟩ := hpiece d hd
      exact .inr (heq ▸ hpasses)

/-- The text behind the entities is the text that was escaped. -/
theorem unescapeMarkup_escapeMarkup (s : String) : unescapeMarkup (escapeMarkup s) = s := by
  rw [← String.toList_inj]
  simp only [unescapeMarkup, toList_replaceAll, toList_escapeMarkup, ← writtenIn_markupChars]
  calc replaced (written '&') ['&'] <| replaced (written '\'') ['\''] <|
        replaced (written '"') ['"'] <| replaced (written '>') ['>'] <|
        replaced (written '<') ['<'] (s.toList.flatMap (writtenIn ['<', '>', '"', '\'', '&']))
    _ = s.toList.flatMap (writtenIn []) := by
      rw [replaced_writtenIn, replaced_writtenIn, replaced_writtenIn, replaced_writtenIn,
        replaced_writtenIn]
      all_goals decide
    _ = s.toList := flatMap_writtenIn_nil _

/-! ## Escaped texts -/

/-- An escaped text has no markup but ampersands; its other characters are those of the text and
those of the entities. -/
theorem mem_escapeMarkup {c : Char} {s : String} (h : c ∈ (escapeMarkup s).toList) :
    c ∉ ['<', '>', '"', '\''] ∧ (c ∈ s.toList ∨ c ∈ "&ampltgquo#x27;".toList) := by
  rw [toList_escapeMarkup] at h
  obtain ⟨d, hd, hc⟩ := List.mem_flatMap.1 h
  by_cases hmarkup : d ∈ markupChars
  · have hall : ∀ d ∈ markupChars, ∀ c ∈ written d,
        c ∉ ['<', '>', '"', '\''] ∧ c ∈ "&ampltgquo#x27;".toList := by decide
    exact ⟨(hall d hmarkup c hc).1, .inr (hall d hmarkup c hc).2⟩
  · rw [written_of_not_mem hmarkup, List.mem_singleton] at hc
    subst hc
    refine ⟨fun hmem => hmarkup ?_, .inl hd⟩
    simp only [markupChars, List.mem_cons] at hmem ⊢
    tauto

/-- An ampersand begins what is `written` for a character, and that is the entity of the
character. -/
theorem entity?_of_written_eq {c : Char} {front back : List Char}
    (h : written c = front ++ '&' :: back) :
    front = [] ∧ ∃ entity, entity? c = some entity ∧ entity.toList = '&' :: back := by
  -- No entity has a second ampersand.
  by_cases hc : c ∈ markupChars
  · have hhead : ∀ c ∈ markupChars, ∃ entity ∈ entity? c,
        written c = entity.toList ∧ entity.toList.head? = some '&' ∧
          '&' ∉ entity.toList.tail := by decide
    obtain ⟨entity, hentity, hwritten, hamp, htail⟩ := hhead c hc
    rw [hwritten] at h
    cases front with
    | nil => exact ⟨rfl, entity, hentity, h⟩
    | cons d front => exact absurd (by simp [h]) htail
  · -- Any other character stands for itself and is no ampersand.
    rw [written_of_not_mem hc, List.singleton_eq_append_iff] at h
    obtain ⟨rfl, hself⟩ | ⟨-, hself⟩ := h
    · obtain ⟨rfl, rfl⟩ := List.cons.inj hself
      exact absurd (by decide) hc
    · exact absurd hself (List.cons_ne_nil _ _)

/-- Wherever an ampersand stands in an escaped text, an entity begins that was written for a
character: the text before it is that of the characters before, the text behind the entity that of
the characters behind. -/
theorem exists_entity_of_amp {s : List Char} {front back : List Char}
    (h : s.flatMap written = front ++ '&' :: back) :
    ∃ before c after entity, s = before ++ c :: after ∧ entity? c = some entity ∧
      front = before.flatMap written ∧
      '&' :: back = entity.toList ++ after.flatMap written := by
  induction s generalizing front with
  | nil => simp at h
  | cons c s ih =>
    rw [List.flatMap_cons] at h
    -- The ampersand stands in what is written for the rest, or in what is written for `c`.
    rcases List.append_eq_append_iff.1 h with ⟨rest, rfl, hrest⟩ | ⟨piece, hpiece, hback⟩
    · obtain ⟨before, d, after, entity, rfl, hentity, rfl, hback⟩ := ih hrest
      exact ⟨c :: before, d, after, entity, rfl, hentity, rfl, hback⟩
    · cases piece with
      -- At the end of what is written for `c`, the ampersand belongs to the rest.
      | nil =>
        rw [List.append_nil] at hpiece
        obtain ⟨before, d, after, entity, rfl, hentity, hfront, hback⟩ := @ih [] hback.symm
        refine ⟨c :: before, d, after, entity, rfl, hentity, ?_, hback⟩
        rw [List.flatMap_cons, ← hfront, List.append_nil, hpiece]
      -- It is part of what is written for `c`, and so begins it.
      | cons d piece =>
        obtain ⟨rfl, -⟩ := List.cons.inj hback
        obtain ⟨rfl, entity, hentity, hname⟩ := entity?_of_written_eq hpiece
        exact ⟨[], c, s, entity, rfl, hentity, rfl, by rw [hback, hname]⟩

/-- **Entities.**  `unescapeMarkup` undoes `escapeMarkup` exactly. The entities are all the markup
that an escaped text has: the other four characters do not occur, and every ampersand begins the
`entity?` that was written for one character, with the escaped characters before it on its left and
those behind on its right. -/
theorem entities_undone (t : String) :
    unescapeMarkup (escapeMarkup t) = t ∧
      (∀ c ∈ ['<', '>', '"', '\''], c ∉ (escapeMarkup t).toList) ∧
      ∀ front back, (escapeMarkup t).toList = front ++ '&' :: back →
        ∃ before c after entity, t.toList = before ++ c :: after ∧ entity? c = some entity ∧
          front = (escapeMarkup (String.ofList before)).toList ∧
          '&' :: back = entity.toList ++ (escapeMarkup (String.ofList after)).toList := by
  refine ⟨unescapeMarkup_escapeMarkup t, fun c hc hmem => (mem_escapeMarkup hmem).1 hc, ?_⟩
  intro front back h
  simp only [toList_escapeMarkup, String.toList_ofList] at h ⊢
  exact exists_entity_of_amp h

/-- A text that already looks like an entity is no exception. -/
theorem entities_undone_nested :
    escapeMarkup "a&lt;" = "a&amp;lt;" ∧ unescapeMarkup "a&amp;lt;" = "a&lt;" ∧
      ∃ before c after entity, "a&lt;".toList = before ++ c :: after ∧ entity? c = some entity ∧
        ['a'] = (escapeMarkup (String.ofList before)).toList ∧
        "&amp;lt;".toList = entity.toList ++ (escapeMarkup (String.ofList after)).toList := by
  have hescaped : escapeMarkup "a&lt;" = "a&amp;lt;" := by decide +kernel
  obtain ⟨hundone, -, hamps⟩ := entities_undone "a&lt;"
  refine ⟨hescaped, hescaped ▸ hundone, hamps ['a'] "amp;lt;".toList ?_⟩
  rw [hescaped]
  rfl

end Morphology.Text
