import Telemetry.Json

/-!
Reads JSON text into a tree. Only blanks may surround the value, numbers have no leading zeros, and
escapes have to be well formed.
-/

namespace Telemetry.Json

namespace Parser

def isBlank (c : Char) : Bool :=
  c == ' ' || c == '\n' || c == '\t' || c == '\r'

def isDigit (c : Char) : Bool :=
  '0' ≤ c && c ≤ '9'

def skipBlanks (cs : List Char) : List Char :=
  cs.dropWhile isBlank

/-- The digits at the front, and what follows them. -/
def digits (cs : List Char) : List Char × List Char :=
  (cs.takeWhile isDigit, cs.dropWhile isDigit)

/-- At least one digit. -/
def digits1 (cs : List Char) : Option (List Char × List Char) :=
  match digits cs with
  | ([], _) => none
  | found => some found

/-- A zero stands alone. -/
def whole (cs : List Char) : Option (List Char × List Char) :=
  match digits1 cs with
  | some ('0' :: _ :: _, _) => none
  | found => found

def fraction (cs : List Char) : Option (List Char × List Char) :=
  match cs with
  | '.' :: rest => do
    let (ds, rest) ← digits1 rest
    return ('.' :: ds, rest)
  | _ => some ([], cs)

def exponentSign (cs : List Char) : List Char × List Char :=
  match cs with
  | '+' :: rest => (['+'], rest)
  | '-' :: rest => (['-'], rest)
  | _ => ([], cs)

def exponent (cs : List Char) : Option (List Char × List Char) :=
  match cs with
  | e :: rest =>
    if e == 'e' || e == 'E' then do
      let (sign, rest) := exponentSign rest
      let (ds, rest) ← digits1 rest
      return (e :: (sign ++ ds), rest)
    else some ([], cs)
  | [] => some ([], cs)

def minus (cs : List Char) : List Char × List Char :=
  match cs with
  | '-' :: rest => (['-'], rest)
  | _ => ([], cs)

def number (cs : List Char) : Option (List Char × List Char) := do
  let (sign, rest) := minus cs
  let (ds, rest) ← whole rest
  let (frac, rest) ← fraction rest
  let (exp, rest) ← exponent rest
  return (sign ++ ds ++ frac ++ exp, rest)

def isEscape (c : Char) : Bool :=
  (unescape.simpleEscape c).isSome

/-- The rest of a string after its opening quote, without the closing one. -/
def stringRest : List Char → Option (List Char × List Char)
  | [] => none
  | '"' :: rest => some ([], rest)
  | '\\' :: 'u' :: a :: b :: c :: d :: rest => do
    let _ ← unescape.hex4 a b c d
    let (raw, rest) ← stringRest rest
    return ('\\' :: 'u' :: a :: b :: c :: d :: raw, rest)
  | '\\' :: e :: rest =>
    if isEscape e then do
      let (raw, rest) ← stringRest rest
      return ('\\' :: e :: raw, rest)
    else none
  | '\\' :: [] => none
  | c :: rest =>
    if c.toNat < 0x20 then none
    else do
      let (raw, rest) ← stringRest rest
      return (c :: raw, rest)

/-- A key and its colon. -/
def fieldKey (cs : List Char) : Option (List Char × List Char) :=
  match skipBlanks cs with
  | '"' :: rest => do
    let (key, rest) ← stringRest rest
    match skipBlanks rest with
    | ':' :: rest => some (key, rest)
    | _ => none
  | _ => none

mutual

/-- A value at the front, and what follows it. Between two calls that consume a
character there is at most one that does not, which bounds the `fuel` that a text needs. -/
def value (fuel : Nat) (cs : List Char) : Option (Json × List Char) :=
  match fuel with
  | 0 => none
  | fuel + 1 =>
    match skipBlanks cs with
    | 'n' :: 'u' :: 'l' :: 'l' :: rest => some (.null, rest)
    | 't' :: 'r' :: 'u' :: 'e' :: rest => some (.bool true, rest)
    | 'f' :: 'a' :: 'l' :: 's' :: 'e' :: rest => some (.bool false, rest)
    | '"' :: rest => do
      let (raw, rest) ← stringRest rest
      return (.string raw, rest)
    | '[' :: rest =>
      match skipBlanks rest with
      | ']' :: rest => some (.array [], rest)
      | rest => do
        let (items, rest) ← items fuel rest
        return (.array items, rest)
    | '\x7b' :: rest =>
      match skipBlanks rest with
      | '\x7d' :: rest => some (.object [], rest)
      | rest => do
        let (fields, rest) ← fields fuel rest
        return (.object fields, rest)
    | rest => do
      let (lexeme, rest) ← number rest
      return (.number lexeme, rest)

/-- The items of an array up to its closing bracket; there is at least one. -/
def items (fuel : Nat) (cs : List Char) : Option (List Json × List Char) :=
  match fuel with
  | 0 => none
  | fuel + 1 => do
    let (first, rest) ← value fuel cs
    match skipBlanks rest with
    | ',' :: rest => do
      let (more, rest) ← items fuel rest
      return (first :: more, rest)
    | ']' :: rest => return ([first], rest)
    | _ => none

/-- The fields of an object up to its closing bracket; there is at least one. -/
def fields (fuel : Nat) (cs : List Char) : Option (List (List Char × Json) × List Char) :=
  match fuel with
  | 0 => none
  | fuel + 1 => do
    let (key, rest) ← fieldKey cs
    let (first, rest) ← value fuel rest
    match skipBlanks rest with
    | ',' :: rest => do
      let (more, rest) ← fields fuel rest
      return ((key, first) :: more, rest)
    | '\x7d' :: rest => return ([(key, first)], rest)
    | _ => none

end

end Parser

/-- The tree of a whole text. -/
def parseChars (cs : List Char) : Option Json := do
  let (j, rest) ← Parser.value (2 * cs.length + 1) cs
  if (Parser.skipBlanks rest).isEmpty then some j else none

def parse (s : String) : Option Json :=
  parseChars s.toList

end Telemetry.Json
