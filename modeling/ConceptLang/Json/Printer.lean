import ConceptLang.Json.Basic

/-!
# Writing JSON

Values are written without blanks. In a text, quotation marks, backslashes and
control characters are escaped, those with a short escape by it and the others
by their number; every other character stands for itself.
-/

namespace ConceptLang

namespace Json

/-- How one character of a text is written. -/
def escape (c : Char) : List Char :=
  if c = '"' then ['\\', '"']
  else if c = '\\' then ['\\', '\\']
  else if c = '\x08' then ['\\', 'b']
  else if c = '\x0c' then ['\\', 'f']
  else if c = '\n' then ['\\', 'n']
  else if c = '\r' then ['\\', 'r']
  else if c = '\t' then ['\\', 't']
  else if c.toNat < 32 then
    ['\\', 'u', '0', '0', Nat.digitChar (c.toNat / 16),
      Nat.digitChar (c.toNat % 16)]
  else [c]

/-- How a text is written. What is no string is written as half a surrogate
pair. -/
def textChars : Option String → List Char
  | some s => '"' :: s.toList.flatMap escape ++ ['"']
  | none => '"' :: "\\ud800".toList ++ ['"']

/-- How a number is written that is not made of digits alone. -/
def decimalChars (d : Decimal) : List Char :=
  (if d.negative then ['-'] else []) ++ d.whole ++
    (if d.fraction.isEmpty then [] else '.' :: d.fraction) ++
    match d.exponent with
    | none => []
    | some (negative, digits) =>
        'e' :: (if negative then ['-'] else []) ++ digits

mutual

/-- The characters that a value is written with. -/
def chars : Json → List Char
  | .null => "null".toList
  | .bool true => "true".toList
  | .bool false => "false".toList
  | .natural n => Nat.toDigits 10 n
  | .decimal d => decimalChars d
  | .string text => textChars text
  | .array items => '[' :: itemChars items ++ [']']
  | .object fields => '\x7b' :: fieldChars fields ++ ['\x7d']

/-- The characters that the items of an array are written with. -/
def itemChars : List Json → List Char
  | [] => []
  | [item] => chars item
  | item :: next :: items => chars item ++ ',' :: itemChars (next :: items)

/-- The characters that the fields of an object are written with. -/
def fieldChars : List (Option String × Json) → List Char
  | [] => []
  | [(key, value)] => textChars key ++ ':' :: chars value
  | (key, value) :: next :: fields =>
    textChars key ++ ':' :: chars value ++ ',' :: fieldChars (next :: fields)

end

/-- The text of a value. -/
def render (json : Json) : String :=
  String.ofList json.chars

end Json

end ConceptLang
