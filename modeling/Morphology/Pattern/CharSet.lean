import Morphology.Pattern.CaseFold
import Morphology.Pattern.WordChars

/-!
# Sets of characters

A set is kept as its spans, in ascending order, so that equal sets are equal values.  What stands in
brackets is kept as it is written: which characters it means depends on whether case counts.

## Main definitions

* `CharSet` — a set of characters
* `CharSet.contains` — membership
* `CharSet.union`, `CharSet.compl`, `CharSet.ignoringCase` — operations
* `CharSet.word`, `CharSet.decimal`, `CharSet.blank` — the sets with a name
* `SetExpr` — the members of a bracketed set
* `SetExpr.toSet` — the characters that they mean
* `SetExpr.depth` — how deep brackets, lists of members and operations are nested
-/

namespace Morphology.Pattern

/-- The code points from `first` to `last`. -/
structure Span where
  first : Nat
  last : Nat
  deriving Repr, DecidableEq, Inhabited

/-- A set of characters: spans in ascending order that neither overlap nor touch. -/
structure CharSet where
  spans : List Span
  deriving Repr, DecidableEq, Inhabited

/-! ## Lists of spans -/

namespace Span

/-- Whether a code point is in the span. -/
def contains (s : Span) (n : Nat) : Bool :=
  s.first ≤ n && n ≤ s.last

/-- Spans with one more, joined to those that it overlaps or touches. -/
def insert (s : Span) : List Span → List Span
  | [] => [s]
  | t :: rest =>
    if s.last + 1 < t.first then s :: t :: rest
    else if t.last + 1 < s.first then t :: insert s rest
    else insert ⟨min s.first t.first, max s.last t.last⟩ rest

/-- The last code point there is. -/
def greatest : Nat := 0x10FFFF

/-- The next code point of a character. -/
def next (n : Nat) : Nat :=
  if n = 0xD7FF then 0xE000 else n + 1

/-- The code point of the character before one that is not the first. -/
def previous (n : Nat) : Nat :=
  if n = 0xE000 then 0xD7FF else n - 1

/-- What some spans leave free from a code point on. -/
def gaps (start : Nat) : List Span → List Span
  | [] => if start ≤ greatest then [⟨start, greatest⟩] else []
  | s :: rest =>
    if start < s.first then ⟨start, previous s.first⟩ :: gaps (next s.last) rest
    else gaps (next s.last) rest

end Span

namespace CharSet

/-! ## Operations -/

/-- The set without characters. -/
def empty : CharSet := ⟨[]⟩

/-- The characters of some spans. -/
def ofSpans (spans : List Span) : CharSet :=
  ⟨spans.foldr Span.insert []⟩

/-- The characters from `first` to `last`. -/
def span (first last : Char) : CharSet := ⟨[⟨first.toNat, last.toNat⟩]⟩

/-- The set of one character. -/
def single (c : Char) : CharSet := span c c

/-- The set of the given code points. -/
def ofPoints (ns : List Nat) : CharSet :=
  ofSpans (ns.map fun n => ⟨n, n⟩)

/-- The set of the given characters. -/
def ofChars (cs : List Char) : CharSet :=
  ofPoints (cs.map Char.toNat)

/-- Whether a code point is in the set. -/
def hasPoint (s : CharSet) (n : Nat) : Bool :=
  s.spans.any (·.contains n)

/-- Whether a character is in the set. -/
def contains (s : CharSet) (c : Char) : Bool :=
  s.hasPoint c.toNat

/-- The character of a set of one. -/
def only? (s : CharSet) : Option Char :=
  match s.spans with
  | [t] => if t.first = t.last then some (Char.ofNat t.first) else none
  | _ => none

/-- The characters of either set. -/
def union (s t : CharSet) : CharSet :=
  ⟨s.spans.foldr Span.insert t.spans⟩

/-- The characters outside the set. -/
def compl (s : CharSet) : CharSet :=
  ⟨Span.gaps 0 s.spans⟩

/-- The characters of both sets. -/
def inter (s t : CharSet) : CharSet :=
  (s.compl.union t.compl).compl

/-- The characters of the first set that are not in the second. -/
def diff (s t : CharSet) : CharSet :=
  s.inter t.compl

/-- The characters of exactly one of the sets. -/
def symmDiff (s t : CharSet) : CharSet :=
  (s.diff t).union (t.diff s)

/-- The set with all characters that differ from one of its own in case only. -/
def ignoringCase (s : CharSet) : CharSet :=
  let pairs := caseRuns.toList.flatMap CaseRun.pairs
  let t := s.union (ofPoints ((pairs.filter (s.hasPoint ·.1)).map (·.2)))
  t.union (ofPoints ((pairs.filter (t.hasPoint ·.2)).map (·.1)))

/-! ## Sets with a name -/

/-- Every character. -/
def any : CharSet := empty.compl

/-- Every character but the end of a line. -/
def inLine : CharSet := (single '\n').compl

/-- Every character but the end of a line and a carriage return. -/
def inLineCRLF : CharSet := ((single '\n').union (single '\r')).compl

/-- The characters of words. -/
def word : CharSet :=
  ofSpans (wordRanges.toList.map fun (first, last) => ⟨first, last⟩)

/-- The zeros of the decimal digits; each is followed by the other nine. -/
def zeros : List Nat := [
  0x0030, 0x0660, 0x06F0, 0x07C0, 0x0966, 0x09E6, 0x0A66, 0x0AE6, 0x0B66, 0x0BE6, 0x0C66, 0x0CE6,
  0x0D66, 0x0DE6, 0x0E50, 0x0ED0, 0x0F20, 0x1040, 0x1090, 0x17E0, 0x1810, 0x1946, 0x19D0, 0x1A80,
  0x1A90, 0x1B50, 0x1BB0, 0x1C40, 0x1C50, 0xA620, 0xA8D0, 0xA900, 0xA9D0, 0xA9F0, 0xAA50, 0xABF0,
  0xFF10, 0x104A0, 0x10D30, 0x10D40, 0x11066, 0x110F0, 0x11136, 0x111D0, 0x112F0, 0x11450, 0x114D0,
  0x11650, 0x116C0, 0x116D0, 0x116DA, 0x11730, 0x118E0, 0x11950, 0x11BF0, 0x11C50, 0x11D50,
  0x11DA0, 0x11F50, 0x16130, 0x16A60, 0x16AC0, 0x16B50, 0x16D70, 0x1CCF0, 0x1D7CE, 0x1D7D8,
  0x1D7E2, 0x1D7EC, 0x1D7F6, 0x1E140, 0x1E2F0, 0x1E4F0, 0x1E5F1, 0x1E950, 0x1FBF0]

/-- The decimal digits of all scripts. -/
def decimal : CharSet :=
  ofSpans (zeros.map fun z => ⟨z, z + 9⟩)

/-- White space. -/
def blank : CharSet := ⟨[
  ⟨0x09, 0x0D⟩, ⟨0x20, 0x20⟩, ⟨0x85, 0x85⟩, ⟨0xA0, 0xA0⟩, ⟨0x1680, 0x1680⟩, ⟨0x2000, 0x200A⟩,
  ⟨0x2028, 0x2029⟩, ⟨0x202F, 0x202F⟩, ⟨0x205F, 0x205F⟩, ⟨0x3000, 0x3000⟩]⟩

end CharSet

/-! ## Sets in brackets -/

/-- An operation on two sets. -/
inductive SetOperation
  | inter
  | diff
  | symmDiff
  deriving Repr, DecidableEq, Inhabited

/-- The set that an operation makes of two. -/
def SetOperation.apply : SetOperation → CharSet → CharSet → CharSet
  | .inter => CharSet.inter
  | .diff => CharSet.diff
  | .symmDiff => CharSet.symmDiff

/-- The members of a bracketed set. -/
inductive SetExpr
  | nothing
  | span (first last : Char)
  | named (s : CharSet)
  /-- A named set of ASCII characters, or all others. -/
  | ascii (negated : Bool) (s : CharSet)
  | bracket (negated : Bool) (members : SetExpr)
  /-- Some members and one more. -/
  | join (members member : SetExpr)
  | operation (op : SetOperation) (left right : SetExpr)
  deriving Repr, DecidableEq, Inhabited

namespace SetExpr

/-- Some members and one more, which may be the first. -/
def add (members member : SetExpr) : SetExpr :=
  match members with
  | .nothing => member
  | members => .join members member

/-- One character as a member. -/
def char (c : Char) : SetExpr := .span c c

/-- The characters of the members.  Only the named sets that are not of ASCII are taken as they are
where case does not count; a negation comes last. -/
def toSet (ignoreCase : Bool) : SetExpr → CharSet
  | .nothing => .empty
  | .span first last => .span first last
  | .named s => s
  | .ascii negated s =>
    let s := fold s
    if negated then s.compl else s
  | .bracket negated members =>
    let s := fold (members.toSet ignoreCase)
    if negated then s.compl else s
  | .join members member => (members.toSet ignoreCase).union (member.toSet ignoreCase)
  | .operation op left right =>
    op.apply (fold (left.toSet ignoreCase)) (fold (right.toSet ignoreCase))
where
  /-- Without regard to case where it does not count. -/
  fold (s : CharSet) : CharSet := if ignoreCase then s.ignoringCase else s

/-- How deep the expression is nested, behind a member of the same list if `joined`.  A list of
two or more members is a level of its own. -/
def depthFrom (joined : Bool) : SetExpr → Nat
  | .nothing => 0
  | .span .. => 0
  | .named _ => 0
  | .ascii .. => 0
  | .bracket _ members => depthFrom false members + 1
  | .join members member =>
    max (depthFrom true members) (depthFrom false member) + if joined then 0 else 1
  | .operation _ left right => max (depthFrom false left) (depthFrom false right) + 1

/-- How deep the expression is nested. -/
def depth (s : SetExpr) : Nat :=
  s.depthFrom false

end SetExpr

end Morphology.Pattern
