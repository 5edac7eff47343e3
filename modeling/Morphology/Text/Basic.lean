/-!
# Texts

The characters with the Unicode property `White_Space` may be removed at both ends of a text.  A
separator is a text; it is looked for from the left, and its occurrences do not overlap.  Inside
markup, the five characters with a meaning of their own are written as entities.

## Main definitions

* `isBlank` — the twenty-five white-space characters
* `trimBoth`, `trimBlanks` — a text without the given characters at its ends
* `cutAt`, `cutAtLast` — the parts before and after one occurrence of a separator
* `splitOn` — the parts between all occurrences
* `replaceAll`, `replaceFirst` — separators exchanged for another text
* `hasInfix` — whether a text occurs at all
* `escapeMarkup`, `unescapeMarkup` — a text with entities, and the text behind them
-/

namespace Morphology.Text

/-! ## White space -/

/-- The characters of the Unicode property `White_Space`. -/
def isBlank (c : Char) : Bool :=
  let n := c.toNat
  (0x09 ≤ n && n ≤ 0x0D) || n == 0x20 || n == 0x85 || n == 0xA0 || n == 0x1680 ||
    (0x2000 ≤ n && n ≤ 0x200A) || n == 0x2028 || n == 0x2029 || n == 0x202F || n == 0x205F ||
    n == 0x3000

/-- The text without the characters of `p` at either end. -/
def trimBoth (p : Char → Bool) (s : List Char) : List Char :=
  ((s.dropWhile p).reverse.dropWhile p).reverse

/-- The text without white space at either end. -/
def trimBlanks (s : String) : String :=
  String.ofList (trimBoth isBlank s.toList)

/-! ## Cutting at a separator -/

/-! ### One occurrence -/

/-- The text before and after the first occurrence of `sep`. -/
def cutAt (sep : List Char) : List Char → Option (List Char × List Char)
  | [] => if sep.isEmpty then some ([], []) else none
  | c :: s =>
    if sep.isPrefixOf (c :: s) then some ([], (c :: s).drop sep.length)
    else (cutAt sep s).map fun (front, back) => (c :: front, back)

/-- A cut loses nothing but the separator. -/
theorem append_of_cutAt {sep s front back : List Char} (h : cutAt sep s = some (front, back)) :
    s = front ++ sep ++ back := by
  induction s generalizing front with
  | nil =>
    simp only [cutAt] at h
    split at h
    · simp_all
    · simp at h
  | cons c s ih =>
    simp only [cutAt] at h
    split at h
    next hp =>
      obtain ⟨t, ht⟩ := List.isPrefixOf_iff_prefix.1 hp
      simp only [Option.some.injEq, Prod.mk.injEq] at h
      obtain ⟨rfl, rfl⟩ := h
      simp [← ht]
    next =>
      obtain ⟨⟨f, b⟩, hfb, heq⟩ := Option.map_eq_some_iff.1 h
      simp only [Prod.mk.injEq] at heq
      obtain ⟨rfl, rfl⟩ := heq
      simp [ih hfb]

/-- The text before and after the last occurrence of `sep`. -/
def cutAtLast (sep s : List Char) : Option (List Char × List Char) :=
  (cutAt sep.reverse s.reverse).map fun (back, front) => (front.reverse, back.reverse)

/-- Whether `sep` occurs in the text. -/
def hasInfix (sep s : List Char) : Bool :=
  (cutAt sep s).isSome

/-! ### All occurrences -/

/-- The parts between the occurrences of `sep`, the first `skip` characters being left out.  The
parts after the first come in the second component. -/
def splitFrom (sep : List Char) : Nat → List Char → List Char × List (List Char)
  | _, [] => ([], [])
  | skip + 1, _ :: s => splitFrom sep skip s
  | 0, c :: s =>
    if sep.isPrefixOf (c :: s) then
      let (part, parts) := splitFrom sep (sep.length - 1) s
      ([], part :: parts)
    else
      let (part, parts) := splitFrom sep 0 s
      (c :: part, parts)

/-- The parts between the occurrences of a non-empty `sep`; a text without it is one part. -/
def splitOn (sep s : List Char) : List (List Char) :=
  let (part, parts) := splitFrom sep 0 s
  part :: parts

/-- The parts of a text between the occurrences of a character. -/
def splitAt (sep : Char) (s : String) : List String :=
  (splitOn [sep] s.toList).map String.ofList

/-- Every occurrence of a non-empty `old` exchanged for `new`. -/
def replaceAll (old new : String) (s : String) : String :=
  String.intercalate new ((splitOn old.toList s.toList).map String.ofList)

/-- The first occurrence of `old` exchanged for `new`. -/
def replaceFirst (old new : String) (s : String) : String :=
  match cutAt old.toList s.toList with
  | none => s
  | some (front, back) => String.ofList front ++ new ++ String.ofList back

/-! ## Text inside markup -/

/-- The entity that stands for a character, if it needs one. -/
def entity? : Char → Option String
  | '&' => some "&amp;"
  | '<' => some "&lt;"
  | '>' => some "&gt;"
  | '"' => some "&quot;"
  | '\'' => some "&#x27;"
  | _ => none

/-- A text with entities in place of the characters that need one. -/
def escapeMarkup (s : String) : String :=
  String.join (s.toList.map fun c => (entity? c).getD c.toString)

/-- The text behind the entities.  Ampersands come back last, so that no entity is read that was
not written. -/
def unescapeMarkup (s : String) : String :=
  replaceAll "&amp;" "&" <| replaceAll "&#x27;" "'" <| replaceAll "&quot;" "\"" <|
    replaceAll "&gt;" ">" <| replaceAll "&lt;" "<" s

end Morphology.Text
