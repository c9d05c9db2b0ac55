import Telemetry.Text.Numeral

/-!
JSON as a tree. Numbers and strings stay as they are written, a string without its quotes: what a
number or an escape stands for is decided where a value is read. So text and tree tell the same.
-/

namespace Telemetry

inductive Json where
  | null
  | bool (b : Bool)
  | number (lexeme : List Char)
  | string (raw : List Char)
  | array (items : List Json)
  | object (fields : List (List Char × Json))
  deriving Repr

namespace Json

mutual

/-- The compact text of a tree. -/
def chars : Json → List Char
  | null => ['n', 'u', 'l', 'l']
  | bool true => ['t', 'r', 'u', 'e']
  | bool false => ['f', 'a', 'l', 's', 'e']
  | number lexeme => lexeme
  | string raw => '"' :: (raw ++ ['"'])
  | array items => '[' :: itemsChars items
  | object fields => '\x7b' :: fieldsChars fields

/-- The items of an array and its closing bracket. -/
def itemsChars : List Json → List Char
  | [] => [']']
  | j :: rest => chars j ++ moreItemsChars rest

def moreItemsChars : List Json → List Char
  | [] => [']']
  | j :: rest => ',' :: (chars j ++ moreItemsChars rest)

/-- The fields of an object and its closing bracket. -/
def fieldsChars : List (List Char × Json) → List Char
  | [] => ['\x7d']
  | f :: rest => fieldChars f ++ moreFieldsChars rest

def moreFieldsChars : List (List Char × Json) → List Char
  | [] => ['\x7d']
  | f :: rest => ',' :: (fieldChars f ++ moreFieldsChars rest)

def fieldChars : List Char × Json → List Char
  | (key, value) => '"' :: (key ++ '"' :: ':' :: chars value)

end

def print (j : Json) : String :=
  String.ofList j.chars

/-- How a character of a string is written. -/
def escapeChar (c : Char) : List Char :=
  match c with
  | '"' => ['\\', '"']
  | '\\' => ['\\', '\\']
  | '\x08' => ['\\', 'b']
  | '\x0c' => ['\\', 'f']
  | '\n' => ['\\', 'n']
  | '\r' => ['\\', 'r']
  | '\t' => ['\\', 't']
  | c =>
    if c.toNat < 0x20 then ['\\', 'u', '0', '0'] ++ Bytes.hexOfByte (UInt8.ofNat c.toNat) else [c]

def escape (text : List Char) : List Char :=
  text.flatMap escapeChar

def text (s : String) : Json :=
  string (escape s.toList)

def nat (n : Nat) : Json :=
  number (Text.decimal n)

def ofOption {α : Type} (f : α → Json) : Option α → Json
  | none => null
  | some a => f a

def list {α : Type} (f : α → Json) (items : List α) : Json :=
  array (items.map f)

/-- An object with named fields. -/
def struct (fields : List (String × Json)) : Json :=
  object (fields.map fun (name, value) => (escape name.toList, value))

/-- A case with fields: an object whose only field is named for the case. -/
def variant (name : String) (fields : List (String × Json)) : Json :=
  struct [(name, struct fields)]

/-- The characters that a string stands for, unless an escape stands for half a character. -/
def unescape : List Char → Option (List Char)
  | [] => some []
  | '\\' :: 'u' :: a :: b :: c :: d :: rest => do
    let unit ← hex4 a b c d
    if unit < 0xD800 ∨ 0xE000 ≤ unit then return Char.ofNat unit :: (← unescape rest)
    else if 0xDC00 ≤ unit then none
    else match rest with
      | '\\' :: 'u' :: e :: f :: g :: h :: rest => do
        let low ← hex4 e f g h
        if 0xDC00 ≤ low ∧ low < 0xE000 then
          return Char.ofNat (0x10000 + (unit - 0xD800) * 0x400 + (low - 0xDC00)) ::
            (← unescape rest)
        else none
      | _ => none
  | '\\' :: e :: rest => do
    let c ← simpleEscape e
    return c :: (← unescape rest)
  | c :: rest => return c :: (← unescape rest)
where
  hex4 (a b c d : Char) : Option Nat := do
    let a ← Bytes.hexValue? a
    let b ← Bytes.hexValue? b
    let c ← Bytes.hexValue? c
    let d ← Bytes.hexValue? d
    return ((a * 16 + b) * 16 + c) * 16 + d
  simpleEscape : Char → Option Char
    | '"' => some '"'
    | '\\' => some '\\'
    | '/' => some '/'
    | 'b' => some '\x08'
    | 'f' => some '\x0c'
    | 'n' => some '\n'
    | 'r' => some '\r'
    | 't' => some '\t'
    | _ => none

end Json

end Telemetry
