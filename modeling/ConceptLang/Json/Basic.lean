/-!
# JSON values

A JSON value as it is read or written: fields keep their order, and keys may
repeat. Of numbers, those written with digits alone are kept apart, because only
they are read as counts and identities; any other number keeps its parts as they
were written.

An escape in a text can stand for half a surrogate pair. Such a text is no
string, and is `none` here.
-/

namespace ConceptLang

/-- A number with a sign, a fraction or an exponent, by the digits it is written
with. -/
structure Decimal where
  negative : Bool
  whole : List Char
  fraction : List Char
  /-- Whether the exponent is negative, and its digits. -/
  exponent : Option (Bool × List Char)
deriving DecidableEq, Repr, Inhabited

/-- A JSON value. -/
inductive Json where
  | null
  | bool (value : Bool)
  /-- A number written with digits alone. -/
  | natural (value : Nat)
  /-- Any other number. -/
  | decimal (value : Decimal)
  | string (text : Option String)
  | array (items : List Json)
  | object (fields : List (Option String × Json))
deriving Repr, Inhabited

/-- The number that decimal digits say, after the digits of `value`. -/
def natOfDigits (value : Nat) (digits : List Char) : Nat :=
  digits.foldl (fun n c => 10 * n + (c.toNat - '0'.toNat)) value

namespace Json

/-- A JSON text. -/
def ofString (s : String) : Json := .string (some s)

/-- A JSON object with proper keys. -/
def ofFields (fields : List (String × Json)) : Json :=
  .object (fields.map fun field => (some field.1, field.2))

mutual

/-- How many containers are nested in a value at most. -/
def depth : Json → Nat
  | .array items => depthItems items + 1
  | .object fields => depthFields fields + 1
  | _ => 0

/-- The greatest depth of the items of an array. -/
def depthItems : List Json → Nat
  | [] => 0
  | item :: items => max (depth item) (depthItems items)

/-- The greatest depth of the values of an object. -/
def depthFields : List (Option String × Json) → Nat
  | [] => 0
  | (_, value) :: fields => max (depth value) (depthFields fields)

end

end Json

end ConceptLang
