import Telemetry.Text.GraphemeExtend
import Telemetry.Text.Numeral
import Telemetry.Text.Unprintable

/-!
Quoted text on one line: what is not visible by itself, line breaks among it, is written as an
escape.
-/

namespace Telemetry.Text

/-- A code point by its number, in hexadecimal without leading zeros. -/
def codeEscape (c : Char) : List Char :=
  ['\\', 'u', '\x7b'] ++ numeral 16 c.toNat ++ ['\x7d']

/-- The halfwidth sound marks extend the character before them, but stand in a cell of their own. -/
def isSoundMark (c : Char) : Bool :=
  c == '\uFF9E' || c == '\uFF9F'

/-- The letters that leave their place in a syllable blank. -/
def isFiller (c : Char) : Bool :=
  c == '\u115F' || c == '\u1160' || c == '\u3164' || c == '\uFFA0'

/-- ASCII shows itself but for the controls; beyond it, the tables decide. -/
def isShown (c : Char) : Bool :=
  if c.toNat < 0x20 then false
  else if c.toNat < 0x7f then true
  else isSoundMark c || !(isGraphemeExtend c || isFiller c || isUnprintable c)

def escapeChar (c : Char) : List Char :=
  match c with
  | '\x00' => ['\\', '0']
  | '\t' => ['\\', 't']
  | '\r' => ['\\', 'r']
  | '\n' => ['\\', 'n']
  | '"' => ['\\', '"']
  | '\\' => ['\\', '\\']
  | c => if isShown c then [c] else codeEscape c

def quoteChars (text : List Char) : List Char :=
  '"' :: (text.flatMap escapeChar ++ ['"'])

def quote (text : String) : String :=
  String.ofList (quoteChars text.toList)

end Telemetry.Text
