import Morphology.Grammar.Basic
import Morphology.Grammar.Compilation

/-!
# Expanding paradigms

A paradigm that uses derivations gets a fork of each: a paradigm whose inflexions go on in the
paradigms of the derived stem.  The forks of a recursion class may also be followed by the forks of
lower classes, and they rule out the derivations of their own and of higher classes.  A link leads
from the paradigm to all its forks.

Then an inflexion with one continuation is replaced by its joins with all inflexions that may stand
there, so that a search has one step less to choose.

## Main definitions

* `Forking`, `Forking.addClasses` — the forks of one paradigm being made, class after class
* `Paradigms.expandSource` — the forks of one paradigm, and the links to them
* `Paradigms.expand` — the forks of all paradigms
* `Paradigms.widenInflexion?` — the joins of an inflexion, if it can be widened
* `Paradigms.reached` — the paradigms that are widened before the time is up
* `Paradigms.widen` — the paradigms with their inflexions widened
-/

namespace Morphology

/-! ## Derivations -/

namespace DerivationEntry

/-- The derivation with a name, the last if there are several. -/
def find? (derivations : List DerivationEntry) (name : String) : Option DerivationEntry :=
  derivations.reverse.find? (·.name == name)

/-- The paradigms of a derived stem: those of the link, else those of the derivation, else the
paradigm that uses it. -/
def targets (d : DerivationEntry) (link : DerivationLink) (source : String) : List String :=
  if !link.paradigms.isEmpty then link.paradigms
  else if !d.paradigms.isEmpty then d.paradigms
  else [source]

/-- An inflexion of a derivation as it stands in a fork: it goes on in the given paradigms. -/
def forkInflexion (subsequent : List String) (template : InflexionEntry) : InflexionEntry :=
  { template with
    flex :=
      if Text.hasInfix "<.>".toList template.flex.toList then template.flex
      else template.flex ++ "<.>"
    position := .nonFinal
    paradigms := subsequent }

end DerivationEntry

/-! ### Recursion classes -/

/-- A use of a derivation, with the derivation. -/
abbrev ResolvedLink := DerivationLink × DerivationEntry

/-- The uses in the classes of their links, the classes in ascending order. -/
def groupByClass (links : List ResolvedLink) : List (Nat × List ResolvedLink) :=
  (numberSet (links.map (·.1.recursClass))).map fun c =>
    (c, links.filter (·.1.recursClass == c))

/-- The names in ascending order, each once. -/
def nameSet (names : List String) : List String :=
  (names.foldl (fun done n => if done.contains n then done else done ++ [n]) []).mergeSort
    fun a b => (compare a b).isLE

/-- The derivations that forks of a class rule out: those of the class and of higher ones. -/
def restrictedFrom (links : List ResolvedLink) (c : Nat) : List String :=
  nameSet ((links.filter (c ≤ ·.1.recursClass)).map (·.1.derivation))

/-! ### Forks -/

/-- The forks made for a paradigm so far. -/
structure Forking where
  paradigms : Paradigms
  /-- The forks, in the order in which they are made. -/
  forks : List Handle
  errors : List GrammarError

/-- The fork of one derivation, unless there is a paradigm of that name.  The name comes with
it. -/
def Forking.addFork (f : Forking) (source : String) (lower restricted : List String)
    (link : ResolvedLink) : Forking × Option String :=
  let (link, derivation) := link
  let name := forkName derivation.name source
  -- A derivation that is used twice has one fork, in the lowest of its classes.
  if (f.paradigms.find? name).isSome then (f, none)
  else
    -- The fork is there before its inflexions, which may lead back to it.
    let (h, ps) := f.paradigms.add ⟨name, [], some ⟨derivation.name, restricted⟩⟩
    let subsequent := derivation.targets link source ++ lower
    let (inflexions, errors) :=
      collect (fun t => Inflexion.ofEntry ps.find? name (DerivationEntry.forkInflexion subsequent t))
        derivation.inflexions
    (⟨ps.modifyInflexions h fun _ => inflexions, f.forks ++ [h], f.errors ++ errors⟩, some name)

/-- The forks of the links of one class, and their names. -/
def Forking.addClass (f : Forking) (source : String) (lower restricted : List String) :
    List ResolvedLink → Forking × List String
  | [] => (f, [])
  | link :: rest =>
    let (f, name) := f.addFork source lower restricted link
    let (f, names) := f.addClass source lower restricted rest
    (f, name.toList ++ names)

/-- The forks of all classes, given the names of the forks of lower ones. -/
def Forking.addClasses (f : Forking) (source : String) (links : List ResolvedLink)
    (lower : List String) : List (Nat × List ResolvedLink) → Forking
  | [] => f
  | (c, ofClass) :: rest =>
    let (f, names) := f.addClass source lower (restrictedFrom links c) ofClass
    f.addClasses source links (lower ++ names) rest

/-! ### Paradigms with derivations -/

namespace Paradigms

/-- The uses of known derivations, and the faults of the others. -/
def resolveLinks (derivations : List DerivationEntry) (source : ParadigmEntry) :
    List ResolvedLink × List GrammarError :=
  collect
    (fun (link : DerivationLink) =>
      match DerivationEntry.find? derivations link.derivation with
      | some d => .ok (link, d)
      | none => .error (.unknownDerivation link.derivation source.name))
    source.derivations

/-- The paradigms with the forks of one paradigm and the links to them. -/
def expandSource (ps : Paradigms) (derivations : List DerivationEntry) (source : ParadigmEntry) :
    Paradigms × List GrammarError :=
  match ps.find? source.name with
  | none => (ps, [])
  | some sourceHandle =>
    let (links, errors) := resolveLinks derivations source
    let f := Forking.addClasses ⟨ps, [], errors⟩ source.name links [] (groupByClass links)
    if f.forks.isEmpty then (f.paradigms, f.errors)
    else
      let link := Inflexion.link f.forks
      let (_, ps) := f.paradigms.add ⟨unifiedName source.name, [link], none⟩
      (ps.modifyInflexions sourceHandle (· ++ [link]), f.errors)

/-- The paradigms with the forks of all given ones. -/
def expand (ps : Paradigms) (derivations : List DerivationEntry) :
    List ParadigmEntry → Paradigms × List GrammarError
  | [] => (ps, [])
  | source :: rest =>
    let (ps, errors) := ps.expandSource derivations source
    let (ps, more) := ps.expand derivations rest
    (ps, errors ++ more)

end Paradigms

/-! ## Widening -/

namespace Paradigms

/-- Whether an inflexion may be widened at all: it has one continuation and, when only short
inflexions are widened, few characters. -/
def isWidenable (config : GrammarConfig) (i : Inflexion) : Bool :=
  i.continuations == 1 && !i.isLink && !i.startWithSelf &&
    !(config.partialCompile && config.minFlexLength ≤ i.literalLength)

/-- The inflexions of a paradigm that is to stand in a continuation, if all of them can. -/
def closedInflexions? (ps : Paradigms) (h : Handle) : Option (List Inflexion) := do
  let p ← ps.get? h
  -- One inflexion that cannot be joined keeps the whole paradigm from being joined.
  if p.isDerivational || p.inflexions.any fun i => i.isLink || i.continues || i.startWithSelf then
    none
  else some p.inflexions

/-- The joins of an inflexion with all that may stand in its continuation, if it can be widened. -/
def widenInflexion? (ps : Paradigms) (config : GrammarConfig) (i : Inflexion) :
    Option (List Inflexion) :=
  if isWidenable config i then
    (i.subsequent.mapM ps.closedInflexions?).map fun children =>
      children.flatten.filterMap i.join?
  else none

/-- The paradigms with the inflexions of one widened. -/
def widenParadigm (ps : Paradigms) (config : GrammarConfig) (h : Handle) : Paradigms :=
  ps.modifyInflexions h (·.flatMap fun i => (ps.widenInflexion? config i).getD [i])

/-- The paradigms that widening reaches before its time is up: all but the derivational ones, or
the first few of them. -/
def reached (ps : Paradigms) (config : GrammarConfig) : List Handle :=
  let handles := (ps.arena.toList.filter fun (_, p) => !p.isDerivational).map (·.1)
  config.widenedParadigms.elim handles handles.take

/-- The paradigms with the inflexions of those that are `reached` widened, one paradigm after
another. -/
def widen (ps : Paradigms) (config : GrammarConfig) : Paradigms :=
  (ps.reached config).foldl (fun ps h => ps.widenParadigm config h) ps

end Paradigms

end Morphology
