import DeSearch.Bytes
import Mathlib.Data.Nat.Digits.Defs

/-!
# SimpleJSON

The JSON library that every program of the repository carries a copy of (`json.hpp`): the value
type, the printer `dump`, and the parser behind `JSON::Load`.

The parser walks a `std::string` by an offset. A `std::string` ends in a NUL that may be read,
and nothing after it may be. So the parser here walks the list of bytes still ahead of the
offset, terminator included (`load` appends it), and reading from the empty list is undefined
behaviour: the result is `none`. An uncaught exception of `std::stol` or `std::stod` is `none`
too.

Two habits of the library matter later. `dump` escapes string values but not object keys, and
`ToString` does not return the string that was parsed but its escaped form.
-/

namespace DeSearch

/-! ## Characters and numbers -/

/-- `isspace` in the C locale. -/
def isSpace (c : Byte) : Bool := c = 32 || (9 ≤ c && c ≤ 13)

def isDigit (c : Byte) : Bool := 48 ≤ c && c ≤ 57

/-- The hexadecimal digits of either case. -/
def isHex (c : Byte) : Bool := isDigit c || (97 ≤ c && c ≤ 102) || (65 ≤ c && c ≤ 70)

/-- What `std::to_string` can print for a `double`: digits, or `inf` or `nan`. -/
structure Numeral where
  text : Bytes
  ne_nil : text ≠ []
  chars : ∀ c ∈ text, isDigit c ∨ c ∈ ascii "-.infa"

/-- What the C++ runtime contributes: how a `double` prints, and what lies behind a buffer in
memory. -/
structure Runtime where
  /-- `std::to_string(std::stod(val) * std::pow(10, exp))`, if `stod` does not throw. -/
  double : Bytes → Int → Option Numeral
  /-- `std::to_string(std::stol(val) * std::pow(10, exp))`. -/
  scaled : Int → Int → Numeral
  /-- The `i`-th byte after the end of a string's buffer. -/
  past : Bytes → Nat → Byte
  /-- Whether the allocator leaves a byte behind a buffer of so many bytes. -/
  spare : Nat → Bool

/-- The number a run of decimal digits spells. -/
def digitsVal (s : Bytes) : Nat := s.foldl (fun n c => 10 * n + (c.val - 48)) 0

/-- `std::stol`: a sign, then digits up to the first other character. -/
def stol (s : Bytes) : Option Int :=
  let (neg, r) := match s with
    | c :: r => if c = ch '-' then (true, r) else (false, s)
    | [] => (false, s)
  let ds := r.takeWhile isDigit
  if ds = [] then none
  else
    let n : Int := if neg then -(digitsVal ds : Int) else digitsVal ds
    if -2 ^ 63 ≤ n ∧ n < 2 ^ 63 then some n else none

/-- Decimal digits of a natural number, most significant first. -/
def decimal (n : Nat) : Bytes :=
  if n = 0 then [48] else (Nat.digits 10 n).reverse.map fun d => Fin.ofNat 256 (48 + d)

/-- `std::to_string` of an integer. -/
def toDecimal (n : Int) : Bytes :=
  if n < 0 then ch '-' :: decimal n.natAbs else decimal n.natAbs

/-! ## Values -/

/-- `json::JSON`. An object is a `std::map`, so its members are sorted by key. A floating value
is kept as the text it prints as. -/
inductive JSON where
  | null
  | object (members : List (Bytes × JSON))
  | array (elems : List JSON)
  | string (s : Bytes)
  | floating (t : Numeral)
  | integral (n : Int)
  | boolean (b : Bool)

namespace JSON

/-- `m[key] = value` on a `std::map`. -/
def mapSet (key : Bytes) (value : JSON) : List (Bytes × JSON) → List (Bytes × JSON)
  | [] => [(key, value)]
  | (k, v) :: m =>
      if key < k then (key, value) :: (k, v) :: m
      else if key = k then (key, value) :: m
      else (k, v) :: mapSet key value m

/-- `json[key] = value`: anything but an object is cleared first. -/
def set (j : JSON) (key : Bytes) (value : JSON) : JSON :=
  match j with
  | object m => object (mapSet key value m)
  | _ => object [(key, value)]

/-- `json[key]` as a value: a missing key reads as null. -/
def get (j : JSON) (key : Bytes) : JSON :=
  match j with
  | object m => (m.lookup key).getD null
  | _ => null

/-- `ArrayRange`. -/
def arrayRange : JSON → List JSON
  | array l => l
  | _ => []

/-- `json_escape` on one character. -/
def escapeByte (c : Byte) : Bytes :=
  if c = ch '"' then [ch '\\', ch '"']
  else if c = ch '\\' then [ch '\\', ch '\\']
  else if c = 8 then [ch '\\', ch 'b']
  else if c = 12 then [ch '\\', ch 'f']
  else if c = 10 then [ch '\\', ch 'n']
  else if c = 13 then [ch '\\', ch 'r']
  else if c = 9 then [ch '\\', ch 't']
  else [c]

/-- `json_escape`. -/
def escape (s : Bytes) : Bytes := s.flatMap escapeByte

/-- `ToString`: the escaped text of a string value, empty for every other type. -/
def toStr : JSON → Bytes
  | string s => escape s
  | _ => []

/-! ## Printing -/

/-- `depth` copies of the two-blank tab. -/
def pad (depth : Nat) : Bytes := List.replicate (2 * depth) 32

mutual

/-- `JSON::dump`. -/
def dump (depth : Nat) : JSON → Bytes
  | null => ascii "null"
  | object m => ascii "\x7b\n" ++ dumpMembers depth m ++ 10 :: pad (depth - 1) ++ ascii "\x7d"
  | array l => ascii "[" ++ dumpElems depth l ++ ascii "]"
  | string s => ch '"' :: escape s ++ [ch '"']
  | floating t => t.text
  | integral n => toDecimal n
  | boolean b => if b then ascii "true" else ascii "false"

/-- The members of an object, each on a line of its own. -/
def dumpMembers (depth : Nat) : List (Bytes × JSON) → Bytes
  | [] => []
  | [(k, v)] => pad depth ++ ch '"' :: k ++ ascii "\" : " ++ dump (depth + 1) v
  | (k, v) :: m =>
      pad depth ++ ch '"' :: k ++ ascii "\" : " ++ dump (depth + 1) v ++ ascii ",\n" ++
        dumpMembers depth m

/-- The elements of an array, on one line. -/
def dumpElems (depth : Nat) : List JSON → Bytes
  | [] => []
  | [v] => dump (depth + 1) v
  | v :: l => dump (depth + 1) v ++ ascii ", " ++ dumpElems depth l

end

/-! ## Parsing -/

/-- `consume_ws`. -/
def consumeWs (s : Bytes) : Bytes := s.dropWhile isSpace

/-- The character an escape stands for; an unknown one reads as a lone backslash. -/
def unescapeByte (d : Byte) : Byte :=
  if d = ch '"' then ch '"'
  else if d = ch '/' then ch '/'
  else if d = ch 'b' then 8
  else if d = ch 'f' then 12
  else if d = ch 'n' then 10
  else if d = ch 'r' then 13
  else if d = ch 't' then 9
  else ch '\\'

/-- Where `parse_string` stands: between characters, after a backslash, or before the last
`k + 1` digits of a `\u` escape whose `u` is the head of `back`. -/
inductive StringMode where
  | plain
  | escape
  | hex (k : Nat) (back : Bytes)

/-- `parse_string` after the opening quote. A bad `\u` escape throws away what was read and
leaves the offset on the `u`. -/
def parseString : StringMode → Bytes → Bytes → Option (Bytes × Bytes)
  | _, _, [] => none
  | .plain, val, c :: s =>
      if c = ch '"' then some (val, s)
      else if c = ch '\\' then parseString .escape val s
      else parseString .plain (val ++ [c]) s
  | .escape, val, d :: s =>
      if d = ch 'u' then parseString (.hex 3 (d :: s)) (val ++ [ch '\\', ch 'u']) s
      else parseString .plain (val ++ [unescapeByte d]) s
  | .hex k back, val, h :: s =>
      if isHex h then
        parseString (if k = 0 then .plain else .hex (k - 1) back) (val ++ [h]) s
      else some ([], back)

/-- The characters `parse_number` collects. -/
def numberChar (c : Byte) : Bool := c = ch '-' || isDigit c || c = ch '.'

/-- What may follow a number. -/
def endsNumber (c : Byte) : Bool := isSpace c || c = ch ',' || c = ch ']' || c = ch '}'

/-- The exponent of `parse_number`, from the character after the `e`, and what is left. That
character is read and dropped, and a minus sign takes the character after it along. On an
unexpected character there is no exponent and the offset stays behind that character. -/
def parseExponent (s : Bytes) : Option (Option Bytes × Bytes) :=
  match s with
  | [] => none
  | c :: s =>
      let (sign, s) := if c = ch '-' then ([ch '-'], s.drop 1) else ([], s)
      match s.dropWhile isDigit with
      | [] => none
      | d :: r =>
          if endsNumber d then some (some (sign ++ s.takeWhile isDigit), d :: r)
          else some (none, r)

/-- `parse_number`. -/
def parseNumber (R : Runtime) (s : Bytes) : Option (JSON × Bytes) :=
  let val := s.takeWhile numberChar
  match s.dropWhile numberChar with
  | [] => none
  | c :: r =>
      if c = ch 'E' ∨ c = ch 'e' then
        match parseExponent r with
        | none => none
        | some (none, rest) => some (null, rest)
        | some (some expStr, rest) =>
            match stol expStr with
            | none => none
            | some e =>
                if ch '.' ∈ val then (R.double val e).map fun t => (floating t, rest)
                else (stol val).map fun n => (floating (R.scaled n e), rest)
      else if endsNumber c then
        if ch '.' ∈ val then (R.double val 0).map fun t => (floating t, c :: r)
        else (stol val).map fun n => (integral n, c :: r)
      else some (null, r)

/-- `parse_bool`. -/
def parseBool (s : Bytes) : JSON × Bytes :=
  if s.take 4 = ascii "true" then (boolean true, s.drop 4)
  else if s.take 5 = ascii "false" then (boolean false, s.drop 5)
  else (null, s)

/-- `parse_null`. -/
def parseNull (s : Bytes) : JSON × Bytes :=
  if s.take 4 = ascii "null" then (null, s.drop 4) else (null, s)

mutual

/-- `parse_next`. -/
def parseNext (R : Runtime) : Nat → Bytes → Option (JSON × Bytes)
  | 0, _ => none
  | n + 1, s =>
      match consumeWs s with
      | [] => none
      | c :: r =>
          if c = ch '[' then
            match consumeWs r with
            | [] => none
            | d :: t => if d = ch ']' then some (array [], t) else parseArray R n [] (d :: t)
          else if c = ch '{' then
            match consumeWs r with
            | [] => none
            | d :: t => if d = ch '}' then some (object [], t) else parseObject R n [] (d :: t)
          else if c = ch '"' then (parseString .plain [] r).map fun p => (string p.1, p.2)
          else if c = ch 't' ∨ c = ch 'f' then some (parseBool (c :: r))
          else if c = ch 'n' then some (parseNull (c :: r))
          else if isDigit c ∨ c = ch '-' then parseNumber R (c :: r)
          else some (null, c :: r)

/-- The loop of `parse_array`: a missing separator empties the array. -/
def parseArray (R : Runtime) : Nat → List JSON → Bytes → Option (JSON × Bytes)
  | 0, _, _ => none
  | n + 1, l, s =>
      match parseNext R n s with
      | none => none
      | some (v, s) =>
          match consumeWs s with
          | [] => none
          | c :: r =>
              if c = ch ',' then parseArray R n (l ++ [v]) r
              else if c = ch ']' then some (array (l ++ [v]), r)
              else some (array [], c :: r)

/-- The loop of `parse_object`: a missing colon or separator ends it with the members so far. -/
def parseObject (R : Runtime) : Nat → List (Bytes × JSON) → Bytes → Option (JSON × Bytes)
  | 0, _, _ => none
  | n + 1, m, s =>
      match parseNext R n s with
      | none => none
      | some (key, s) =>
          match consumeWs s with
          | [] => none
          | c :: r =>
              if c = ch ':' then
                match parseNext R n (consumeWs r) with
                | none => none
                | some (value, s) =>
                    let m := mapSet key.toStr value m
                    match consumeWs s with
                    | [] => none
                    | c :: r =>
                        if c = ch ',' then parseObject R n m r
                        else if c = ch '}' then some (object m, r)
                        else some (object m, c :: r)
              else some (object m, c :: r)

end

/-- Nested calls and loop turns are at most two for each character. -/
def loadFuel (s : Bytes) : Nat := 2 * s.length + 4

/-- `JSON::Load`. What follows the first value is ignored. -/
def load (R : Runtime) (s : Bytes) : Option JSON :=
  (parseNext R (loadFuel s) (s ++ [0])).map Prod.fst

end JSON

end DeSearch
