import Morphology.Grammar.FieldTest
import Morphology.Grammar.Flex
import Morphology.Table

/-!
# Inflexions and paradigms

A paradigm is a list of inflexions under a name.  Derivations make paradigms of their own, whose
names begin with a mark.

## Main definitions

* `Position` — where an inflexion may stand in a chain
* `Inflexion` — a flex with the conditions and effects of using it
* `Inflexion.ofFlex` — the inflexion of a flex
* `Inflexion.join?` — an inflexion with another in place of its continuation
* `Inflexion.anchoredKey`, `Inflexion.slotKey` — the characters an inflexion begins with
* `Paradigm` — a list of inflexions
* `forkName`, `unifiedName` — the names of the paradigms that derivations make
* `Paradigms` — the paradigms of a grammar, found by handle or by name
-/

namespace Morphology

/-! ## Inflexions -/

/-- Where an inflexion may stand in a chain. -/
inductive Position
  /-- It does not end a word. -/
  | nonFinal
  /-- It ends the word. -/
  | final
  | both
  deriving Repr, DecidableEq, Inhabited

/-- One form of a paradigm. -/
structure Inflexion where
  /-- The flex as written, for messages. -/
  flex : String
  parts : List FlexPart
  gramm : String
  /-- The stem slots that it can be used with; any slot when absent. -/
  stemNums : Option (List Nat)
  tests : List FieldTest
  /-- The form of the stem that becomes the lemma. -/
  lemmaChanger : Option Inflexion
  position : Position
  /-- The paradigms that continuations lead to. -/
  subsequent : List Handle
  replaceGrammar : Bool
  keepOtherData : Bool
  /-- Whether it may precede its stem. -/
  startWithSelf : Bool
  deriving Repr, Inhabited

/-- The address of an inflexion. -/
structure InflexionId where
  paradigm : Handle
  index : Nat
  deriving Repr, DecidableEq, Inhabited

namespace Inflexion

/-! ### Making inflexions -/

/-- The inflexion with given parts and no conditions. -/
def ofParts (flex gramm : String) (parts : List FlexPart) : Inflexion where
  flex := flex
  parts := parts
  gramm := gramm
  stemNums := none
  tests := []
  lemmaChanger := none
  position := .both
  subsequent := []
  replaceGrammar := false
  keepOtherData := true
  startWithSelf := (parts.head?.map (·.role)) == some .startWithSelf

/-- The inflexion of a flex, with the slices of a gloss given to its parts. -/
def ofFlex (flex gloss gramm : String) : Except FlexFault Inflexion :=
  (Flex.read flex).map fun parts => ofParts flex gramm (Flex.assignGlosses parts gloss)

/-- The inflexion that only leads to other paradigms. -/
def link (subsequent : List Handle) : Inflexion :=
  { ofParts "" "" [] with subsequent := subsequent }

/-! ### Properties -/

/-- Whether the inflexion only leads to other paradigms. -/
def isLink (i : Inflexion) : Bool :=
  i.parts.isEmpty && !i.subsequent.isEmpty

/-- The number of continuations. -/
def continuations (i : Inflexion) : Nat :=
  i.parts.countP (·.role = .continuation)

/-- Whether there is a continuation. -/
def continues (i : Inflexion) : Bool :=
  i.parts.any (·.role = .continuation)

/-- Whether there is a place for an incorporated stem. -/
def incorporates (i : Inflexion) : Bool :=
  i.parts.any (·.role = .incorporation)

/-- The number of characters it has in words. -/
def literalLength (i : Inflexion) : Nat :=
  (i.parts.flatMap (·.surface)).length

/-- The surface of the parts up to the first marker, those in `skip` being passed over at the
front. -/
def keyFrom (skip : Role → Bool) (parts : List FlexPart) : List Char :=
  ((parts.dropWhile fun p => skip p.role).takeWhile fun p => !p.role.isMarker).flatMap (·.surface)

/-- What a word has where the inflexion begins, the stem being behind. -/
def anchoredKey (i : Inflexion) : List Char :=
  keyFrom (fun r => r = .empty || r = .startWithSelf || r.isBoundary) i.parts

/-- What a word has where the inflexion begins, the stem being still ahead. -/
def slotKey (i : Inflexion) : List Char :=
  keyFrom (fun r => r = .empty || r = .startWithSelf) i.parts

/-! ### Joining -/

/-- The parts of an inflexion that stand in a continuation: all but boundaries and the sign for
preceding the stem. -/
def innerParts (i : Inflexion) : List FlexPart :=
  i.parts.filter fun p => !p.role.isBoundary && p.role ≠ .startWithSelf

/-- Parts with others in place of the first continuation. -/
def splice (inserted : List FlexPart) : List FlexPart → List FlexPart
  | [] => []
  | p :: rest => if p.role = .continuation then inserted ++ rest else p :: splice inserted rest

/-- The slots that two restrictions leave. -/
def meetStemNums : Option (List Nat) → Option (List Nat) → Option (List Nat)
  | some ms, some ns => some (ms.filter ns.contains)
  | none, ns => ns
  | ms, none => ms

/-- The inflexion with another in place of its first continuation, if it has one. -/
def join? (i child : Inflexion) : Option Inflexion :=
  if i.continues then
    some {
      flex := Text.replaceFirst "<.>" (String.ofList (child.flex.toList.dropWhile (· == '.'))) i.flex
      parts := splice child.innerParts i.parts
      gramm := if child.replaceGrammar then child.gramm else joinTags i.gramm child.gramm
      stemNums := meetStemNums i.stemNums child.stemNums
      tests := i.tests ++ child.tests
      lemmaChanger := child.lemmaChanger.orElse fun _ => i.lemmaChanger
      position := child.position
      subsequent := child.subsequent
      replaceGrammar := i.replaceGrammar || child.replaceGrammar
      keepOtherData := i.keepOtherData && child.keepOtherData
      startWithSelf := i.startWithSelf }
  else none

end Inflexion

/-! ## Paradigms -/

/-! ### Names -/

/-- What the names of paradigms made by derivations begin with. -/
def derivationMark : String := "#deriv#"

/-- The name of the paradigm that a derivation makes for a source paradigm. -/
def forkName (derivation paradigm : String) : String :=
  derivationMark ++ derivation ++ "#paradigm#" ++ paradigm

/-- The name of the paradigm that leads to all derivations of a source paradigm. -/
def unifiedName (paradigm : String) : String :=
  derivationMark ++ "paradigm#" ++ paradigm

/-! ### Paradigms -/

/-- What a derivation's paradigm says about the derivation. -/
structure DerivationInfo where
  derivation : String
  /-- The derivations that may not follow in the same word. -/
  restricted : List String
  deriving Repr, DecidableEq, Inhabited

/-- A list of inflexions under a name. -/
structure Paradigm where
  name : String
  inflexions : List Inflexion
  derivation : Option DerivationInfo
  deriving Repr, Inhabited

namespace Paradigm

/-- Whether the paradigm is made by derivations. -/
def isDerivational (p : Paradigm) : Bool :=
  p.derivation.isSome || derivationMark.toList.isPrefixOf p.name.toList

/-- Whether a derivation may not follow in the same word. -/
def restricts (p : Paradigm) (derivation : String) : Bool :=
  p.derivation.any fun info => info.restricted.contains derivation

end Paradigm

/-! ### All paradigms of a grammar -/

/-- The paradigms of a grammar. -/
structure Paradigms where
  arena : Arena Paradigm
  /-- The handle of the paradigm that last got a name. -/
  names : Table String Handle

namespace Paradigms

/-- No paradigms. -/
def empty : Paradigms := ⟨.empty 0, .empty⟩

instance : Inhabited Paradigms := ⟨empty⟩

/-- The paradigm under a handle. -/
def get? (ps : Paradigms) (h : Handle) : Option Paradigm := ps.arena.get? h

/-- The handle of the paradigm with a name. -/
def find? (ps : Paradigms) (name : String) : Option Handle := ps.names.get? name

/-- One more paradigm, which is found under its name from now on. -/
def add (ps : Paradigms) (p : Paradigm) : Handle × Paradigms :=
  let (h, arena) := ps.arena.alloc p
  (h, ⟨arena, ps.names.insert p.name h⟩)

/-- The paradigms with the inflexions of one changed. -/
def modifyInflexions (ps : Paradigms) (h : Handle) (f : List Inflexion → List Inflexion) :
    Paradigms :=
  { ps with arena := ps.arena.modify h fun p => { p with inflexions := f p.inflexions } }

/-- The inflexion with an address. -/
def inflexion? (ps : Paradigms) (id : InflexionId) : Option Inflexion :=
  (ps.get? id.paradigm).bind (·.inflexions[id.index]?)

end Paradigms

end Morphology
