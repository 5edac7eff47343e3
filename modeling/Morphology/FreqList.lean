import Morphology.Text.Basic
import Morphology.Text.Quoted

/-!
# Frequency lists

A frequency list has one line per token: the token, a separator, and how often the token occurs.

## Main definitions

* `FreqEntry` — a token with its count
* `FreqList.read` — the entries of a list, or the first fault
* `FreqList.sort` — the entries by falling count, then by token
-/

namespace Morphology

/-- A token with its count in a corpus. -/
structure FreqEntry where
  token : String
  count : UInt64
  deriving Repr, DecidableEq, Inhabited

namespace FreqList

/-! ## Faults -/

/-- What is wrong with a list; lines are numbered from one. -/
inductive Fault
  | missingSeparator (line : Nat) (separator : String)
  | invalidCount (line : Nat) (value : String)
  deriving Repr, DecidableEq, Inhabited

/-- The message of a fault. -/
def Fault.message : Fault → String
  | .missingSeparator line separator =>
    "line " ++ toString line ++ ": expected a token and a count separated by " ++
      Text.quoted separator
  | .invalidCount line value =>
    "line " ++ toString line ++ ": invalid count " ++ Text.quoted value

/-! ## Reading -/

/-- The count that a text stands for: digits, perhaps a plus sign in front, in 64 bits. -/
def count? (s : String) : Option UInt64 :=
  let digits := match s.toList with
    | '+' :: rest => rest
    | rest => rest
  if digits.isEmpty || !digits.all Char.isDigit then none
  else
    let n : Nat := digits.foldl (fun n d => 10 * n + (d.toNat - '0'.toNat)) 0
    if n < UInt64.size then some n.toUInt64 else none

/-- The entry of a line.  Lines of at most two characters have none. -/
def readLine (separator : String) (number : Nat) (raw : String) :
    Except Fault (Option FreqEntry) :=
  let line := Text.trimBlanks raw
  -- A token, a separator and a count need three characters.
  if line.length ≤ 2 then .ok none
  else
    match Text.cutAtLast separator.toList line.toList with
    | none => .error (.missingSeparator number separator)
    | some (token, value) =>
      let value := String.ofList value
      match count? (Text.trimBlanks value) with
      | none => .error (.invalidCount number value)
      | some count => .ok (some ⟨Text.trimBlanks (String.ofList token), count⟩)

/-- The entries of some lines, the first of which has the given number. -/
def readLines (separator : String) (number : Nat) : List String → Except Fault (List FreqEntry)
  | [] => .ok []
  | line :: rest => do
    let entry ← readLine separator number line
    let entries ← readLines separator (number + 1) rest
    return entry.toList ++ entries

/-- The entries of a list, in the order of its lines. -/
def read (separator : String) (text : String) : Except Fault (List FreqEntry) :=
  readLines separator 1 (Text.splitAt '\n' text)

/-! ## Order -/

/-- Whether an entry may stand before another: the greater count comes first, and of equal counts
the lesser token. -/
def mayPrecede (a b : FreqEntry) : Bool :=
  b.count < a.count || (a.count == b.count && (compare a.token b.token).isLE)

/-- The entries by falling count, then by token. -/
def sort (entries : List FreqEntry) : List FreqEntry :=
  entries.mergeSort mayPrecede

end FreqList

end Morphology
