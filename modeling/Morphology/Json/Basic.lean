import Morphology.Text.Quoted

/-!
# JSON values

A value keeps what its text says: numbers keep their digits, objects keep repeated keys and
the order of their members.

## Main definitions

* `Json.Numeral` — a number as written
* `Json.Value` — a value
* `Json.Numeral.toNat?`, `Json.Numeral.isFinite` — what a numeral stands for
* `Json.Value.write` — the text of a value, without white space
-/

namespace Morphology.Json

/-! ## Numbers -/

/-- A number as written: a sign, digits, and perhaps a fraction and an exponent. -/
structure Numeral where
  negative : Bool
  whole : List Char
  /-- The digits after the point. -/
  fraction : Option (List Char)
  /-- Whether the exponent is negative, and its digits. -/
  exponent : Option (Bool × List Char)
  deriving Repr, DecidableEq, Inhabited

namespace Numeral

/-- The number that decimal digits stand for, read after the digits of `front`. -/
def ofDigits (front : Nat) (digits : List Char) : Nat :=
  digits.foldl (fun n d => 10 * n + (d.toNat - '0'.toNat)) front

/-- The natural number written without sign, fraction and exponent. -/
def toNat? (n : Numeral) : Option Nat :=
  if n.negative || n.fraction.isSome || n.exponent.isSome then none
  else some (ofDigits 0 n.whole)

/-- The numeral of a natural number. -/
def ofNat (n : Nat) : Numeral :=
  ⟨false, (Nat.toDigits 10 n), none, none⟩

/-- The longest front of the digits whose number fits a 64-bit word, as a number, with the number of
digits taken. -/
def takeWord (value taken : Nat) : List Char → Nat × Nat
  | [] => (value, taken)
  | d :: rest =>
    let next := 10 * value + (d.toNat - '0'.toNat)
    if next < UInt64.size then takeWord next (taken + 1) rest else (value, taken)

/-- The least exponent at which reading stops counting. -/
def exponentCap : Nat := 1 <<< 31

/-- Whether a double can hold the number: its leading digits, as many as fit a 64-bit word, times
a power of ten, both rounded to doubles, have a finite product. -/
def isFinite (n : Numeral) : Bool :=
  let digits := n.whole ++ n.fraction.getD []
  let (value, taken) := takeWord 0 0 digits
  let kept := min taken n.whole.length
  let shift : Int := (n.whole.length - kept : Nat) - (taken - kept : Nat)
  match n.exponent with
  | none => value == 0 || withinDouble value shift
  | some (isNegative, ds) =>
    let e := ofDigits 0 ds
    if isNegative then value == 0 || withinDouble value (shift - e)
    else if exponentCap ≤ e then value == 0
    else value == 0 || withinDouble value (shift + e)
where
  /-- Whether `value * 10 ^ power` stays finite. -/
  withinDouble (value : Nat) (power : Int) : Bool :=
    if power ≤ 0 then true
    else if 308 < power then false
    else !(value.toUInt64.toFloat * Float.ofScientific 1 false power.toNat).isInf

/-- The numeral as text. -/
def text (n : Numeral) : String :=
  String.ofList <|
    (if n.negative then ['-'] else []) ++ n.whole ++
    (match n.fraction with
      | some ds => '.' :: ds
      | none => []) ++
    (match n.exponent with
      | some (isNegative, ds) => 'e' :: (if isNegative then '-' :: ds else ds)
      | none => [])

end Numeral

/-! ## Values -/

/-- A value.  A string or a key is absent when its escapes leave half of a surrogate pair alone:
such a literal is well formed and stands for no text. -/
inductive Value
  | null
  | bool (b : Bool)
  | num (n : Numeral)
  | str (s : Option String)
  | arr (items : List Value)
  | obj (members : List (Option String × Value))
  deriving Repr, Inhabited

namespace Value

/-- A string. -/
def ofString (s : String) : Value := .str (some s)

/-- A natural number. -/
def ofNat (n : Nat) : Value := .num (.ofNat n)

/-- An object with the given members; of two with one key the later stays. -/
def ofMembers (members : List (String × Value)) : Value :=
  .obj <| members.foldl (fun done (k, v) => done.filter (·.1 != some k) ++ [(some k, v)]) []

/-- A string, or `null`. -/
def ofString? : Option String → Value
  | some s => ofString s
  | none => .null

/-- The value of an object at a key, the last if there are several. -/
def member? (key : String) : Value → Option Value
  | .obj members => (members.reverse.find? (·.1 == some key)).map (·.2)
  | _ => none

/-- The items of an array. -/
def items? : Value → Option (List Value)
  | .arr items => some items
  | _ => none

/-- The text of a string. -/
def text? : Value → Option String
  | .str s => s
  | _ => none

end Value

/-! ## Writing -/

/-- One character inside a string literal. -/
def escapeInString (c : Char) : String :=
  if c == '"' then "\\\""
  else if c == '\\' then "\\\\"
  else if c.toNat < 0x20 then
    let digits := Text.hexDigits c.toNat
    "\\u" ++ String.ofList (List.replicate (4 - digits.length) '0') ++ digits
  else c.toString

/-- A string literal. -/
def stringLiteral (s : String) : String :=
  "\"" ++ String.join (s.toList.map escapeInString) ++ "\""

/-- The text of a value.  A string that stands for no text is written empty. -/
def Value.write : Value → String
  | .null => "null"
  | .bool b => if b then "true" else "false"
  | .num n => n.text
  | .str s => stringLiteral (s.getD "")
  | .arr items => "[" ++ String.intercalate "," (writeItems items) ++ "]"
  | .obj members => "\x7b" ++ String.intercalate "," (writeMembers members) ++ "\x7d"
where
  /-- The texts of the items of an array. -/
  writeItems : List Value → List String
    | [] => []
    | v :: rest => v.write :: writeItems rest
  /-- The texts of the members of an object. -/
  writeMembers : List (Option String × Value) → List String
    | [] => []
    | (k, v) :: rest => (stringLiteral (k.getD "") ++ ":" ++ v.write) :: writeMembers rest

end Morphology.Json
