import I860.Text.Hex
/-!
# JSON documents

A reader for the text of configurations. It keeps of a document what a configuration can
use: of numbers only whether they are plain naturals, and of strings whether they are text at
all, because an escape can name half of a character.

The reader goes through the characters from left to right and returns what it has read with
what is left. Nesting is bounded by the length of the text, which is the fuel.
-/

namespace I860

/-- A document. A number that is not written as a natural number, and a string that is not
text, are `none`. -/
inductive Json where
  | null
  | bool (b : Bool)
  | number (natural : Option Nat)
  | string (text : Option String)
  | array (items : List Json)
  | object (members : List (Option String × Json))

namespace Json

def isBlank (c : Char) : Bool := c == ' ' || c == '\n' || c == '\t' || c == '\r'

/-- The characters after blanks. -/
def skipBlank (cs : List Char) : List Char := cs.dropWhile isBlank

/-- The character that a one-letter escape stands for. -/
def shortEscape? (c : Char) : Option Char :=
  match c with
  | '"' => some '"'
  | '\\' => some '\\'
  | '/' => some '/'
  | 'b' => some '\x08'
  | 'f' => some '\x0c'
  | 'n' => some '\n'
  | 'r' => some '\r'
  | 't' => some '\t'
  | _ => none

/-- Whether a 16-bit unit is the first half of a character. -/
def isHighHalf (n : Nat) : Bool := 0xd800 ≤ n && n ≤ 0xdbff

/-- Whether a 16-bit unit is the second half of a character. -/
def isLowHalf (n : Nat) : Bool := 0xdc00 ≤ n && n ≤ 0xdfff

/-- The character with the given halves. -/
def joinHalves (high low : Nat) : Char :=
  Char.ofNat (0x10000 + (high - 0xd800) * 0x400 + (low - 0xdc00))

/-- Reads a string behind its opening quote. `done` holds the characters so far, last one
first; `whole` says that no half stands alone among them; `high` is a first half that waits
for its second. -/
def readString (done : List Char) (whole : Bool) (high : Option Nat) :
    List Char → Option (Option String × List Char)
  | [] => none
  | '"' :: rest =>
      some (if whole && high.isNone then some (String.ofList done.reverse) else none, rest)
  | '\\' :: 'u' :: a :: b :: c :: d :: rest =>
      match Text.ofDigits? 16 [a, b, c, d] with
      | none => none
      | some n =>
          if isLowHalf n then
            match high with
            | some h => readString (joinHalves h n :: done) whole none rest
            | none => readString done false none rest
          else if isHighHalf n then readString done (whole && high.isNone) (some n) rest
          else readString (Char.ofNat n :: done) (whole && high.isNone) none rest
  | '\\' :: e :: rest =>
      match shortEscape? e with
      | some c => readString (c :: done) (whole && high.isNone) none rest
      | none => none
  | c :: rest =>
      if c = '\\' ∨ c.toNat < 0x20 then none
      else readString (c :: done) (whole && high.isNone) none rest

/-- What is left behind a run of digits; there has to be one. -/
def readDigits (cs : List Char) : Option (List Char) :=
  match cs with
  | c :: rest => if c.isDigit then some (rest.dropWhile Char.isDigit) else none
  | [] => none

/-- Reads the fraction of a number, if it has one. -/
def readFraction (cs : List Char) : Option (Bool × List Char) :=
  match cs with
  | '.' :: rest => (readDigits rest).map fun left => (true, left)
  | _ => some (false, cs)

/-- Reads the exponent of a number, if it has one. -/
def readExponent (cs : List Char) : Option (Bool × List Char) :=
  let digits (rest : List Char) :=
    (readDigits (match rest with
      | '+' :: more => more
      | '-' :: more => more
      | _ => rest)).map fun left => (true, left)
  match cs with
  | 'e' :: rest => digits rest
  | 'E' :: rest => digits rest
  | _ => some (false, cs)

/-- Reads the whole part of a number: no zeros in front. -/
def readWhole (cs : List Char) : Option (Nat × List Char) :=
  let digits := cs.takeWhile Char.isDigit
  let left := cs.dropWhile Char.isDigit
  match digits with
  | [] => none
  | '0' :: _ :: _ => none
  | _ => (Text.ofDigits? 10 digits).map fun n => (n, left)

/-- Reads a number. It counts as a natural number if it has no sign, fraction or exponent. -/
def readNumber (cs : List Char) : Option (Option Nat × List Char) := do
  let (signed, cs) := match cs with
    | '-' :: rest => (true, rest)
    | _ => (false, cs)
  let (n, cs) ← readWhole cs
  let (hasFraction, cs) ← readFraction cs
  let (hasExponent, cs) ← readExponent cs
  return (if signed || hasFraction || hasExponent then none else some n, cs)

mutual

/-- Reads a value. -/
def readValue : (fuel : Nat) → List Char → Option (Json × List Char)
  | 0, _ => none
  | fuel + 1, cs =>
      match skipBlank cs with
      | 'n' :: 'u' :: 'l' :: 'l' :: rest => some (.null, rest)
      | 't' :: 'r' :: 'u' :: 'e' :: rest => some (.bool true, rest)
      | 'f' :: 'a' :: 'l' :: 's' :: 'e' :: rest => some (.bool false, rest)
      | '"' :: rest => (readString [] true none rest).map fun (s, left) => (.string s, left)
      | '[' :: rest =>
          match skipBlank rest with
          | ']' :: left => some (.array [], left)
          | more => (readItems fuel more).map fun (items, left) => (.array items, left)
      | '{' :: rest =>
          match skipBlank rest with
          | '}' :: left => some (.object [], left)
          | more => (readMembers fuel more).map fun (members, left) => (.object members, left)
      | more => (readNumber more).map fun (n, left) => (.number n, left)

/-- Reads the items of an array up to its closing bracket; there is at least one. -/
def readItems : (fuel : Nat) → List Char → Option (List Json × List Char)
  | 0, _ => none
  | fuel + 1, cs =>
      match readValue fuel cs with
      | none => none
      | some (item, left) =>
          match skipBlank left with
          | ']' :: rest => some ([item], rest)
          | ',' :: rest => (readItems fuel rest).map fun (items, left) => (item :: items, left)
          | _ => none

/-- Reads the members of an object up to its closing brace; there is at least one. -/
def readMembers : (fuel : Nat) → List Char → Option (List (Option String × Json) × List Char)
  | 0, _ => none
  | fuel + 1, cs =>
      match skipBlank cs with
      | '"' :: rest =>
          match readString [] true none rest with
          | none => none
          | some (key, left) =>
              match skipBlank left with
              | ':' :: rest =>
                  match readValue fuel rest with
                  | none => none
                  | some (value, left) =>
                      match skipBlank left with
                      | '}' :: rest => some ([(key, value)], rest)
                      | ',' :: rest =>
                          (readMembers fuel rest).map fun (members, left) =>
                            ((key, value) :: members, left)
                      | _ => none
              | _ => none
      | _ => none

end

/-- The document that a text is, if it is one. -/
def ofString? (text : String) : Option Json :=
  let cs := text.toList
  match readValue (2 * cs.length + 2) cs with
  | some (json, left) => if (skipBlank left).isEmpty then some json else none
  | none => none

end Json

end I860
