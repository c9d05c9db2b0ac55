/-!
Byte strings: hexadecimal text and the little-endian 16-bit number. Reading hexadecimal undoes
writing it (`ofHex?_hex`), and so does reading a number (`word16_ofWord16`).
-/

namespace Telemetry

abbrev Bytes := List UInt8

namespace Bytes

/-- The digits are lower case. -/
def hexDigit (n : Nat) : Char :=
  if n < 10 then Char.ofNat (48 + n) else Char.ofNat (87 + n)

/-- Either case is read. -/
def hexValue? (c : Char) : Option Nat :=
  if '0' ≤ c ∧ c ≤ '9' then some (c.toNat - 48)
  else if 'a' ≤ c ∧ c ≤ 'f' then some (c.toNat - 87)
  else if 'A' ≤ c ∧ c ≤ 'F' then some (c.toNat - 55)
  else none

def hexOfByte (b : UInt8) : List Char :=
  [hexDigit (b.toNat / 16), hexDigit (b.toNat % 16)]

def hexChars (bytes : Bytes) : List Char :=
  bytes.flatMap hexOfByte

def hex (bytes : Bytes) : String :=
  String.ofList (hexChars bytes)

def ofHexChars? : List Char → Option Bytes
  | [] => some []
  | [_] => none
  | hi :: lo :: rest => do
    let hi ← hexValue? hi
    let lo ← hexValue? lo
    let rest ← ofHexChars? rest
    return UInt8.ofNat (16 * hi + lo) :: rest

def ofHex? (s : String) : Option Bytes :=
  ofHexChars? s.toList

/-- The low byte comes first. -/
def ofWord16 (w : UInt16) : Bytes :=
  [UInt8.ofNat w.toNat, UInt8.ofNat (w.toNat / 256)]

/-- The number in the first two bytes; a missing byte counts as zero. -/
def word16 : Bytes → UInt16
  | [] => 0
  | [lo] => lo.toUInt16
  | lo :: hi :: _ => UInt16.ofNat (lo.toNat + 256 * hi.toNat)

def ofText (s : String) : Bytes :=
  s.toUTF8.toList

/-- The bytes from `position` on, `size` of them if there are so many. -/
def slice (data : Array UInt8) (position size : Nat) : Bytes :=
  (data.extract position (position + size)).toList

theorem slice_eq (data : Array UInt8) (position size : Nat) :
    slice data position size = (data.toList.drop position).take size := by
  simp [slice]

theorem length_slice_le (data : Array UInt8) (position size : Nat) :
    (slice data position size).length ≤ data.size - position := by
  rw [slice_eq, List.length_take, List.length_drop, Array.length_toList]
  omega

theorem hexValue?_hexDigit : ∀ {n : Nat}, n < 16 → hexValue? (hexDigit n) = some n := by
  decide

theorem ofHexChars?_hexChars (bytes : Bytes) : ofHexChars? (hexChars bytes) = some bytes := by
  induction bytes with
  | nil => rfl
  | cons b rest ih =>
    have hb := b.toNat_lt
    have hhi := hexValue?_hexDigit (n := b.toNat / 16) (by omega)
    have hlo := hexValue?_hexDigit (n := b.toNat % 16) (by omega)
    have hsum : 16 * (b.toNat / 16) + b.toNat % 16 = b.toNat := by omega
    unfold hexChars at ih ⊢
    simp only [List.flatMap_cons, hexOfByte, List.cons_append, List.nil_append, ofHexChars?, hhi,
      hlo, ih, Option.bind_eq_bind, Option.bind_some, Option.pure_def, hsum, UInt8.ofNat_toNat]

theorem ofHex?_hex (bytes : Bytes) : ofHex? (hex bytes) = some bytes := by
  simp [ofHex?, hex, ofHexChars?_hexChars]

theorem word16_ofWord16 (w : UInt16) (rest : Bytes) : word16 (ofWord16 w ++ rest) = w := by
  have hw := w.toNat_lt
  apply UInt16.toNat.inj
  simp only [ofWord16, List.cons_append, List.nil_append, word16, UInt8.toNat_ofNat',
    UInt16.toNat_ofNat']
  omega

end Bytes

end Telemetry
