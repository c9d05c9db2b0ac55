/-!
Sources of random choices, and one that is determined by its seed.
-/

namespace Telemetry

/-- What drawing at random has to offer. A choice lies in the range it is drawn from. -/
class RandomSource (γ : Type) where
  byte : γ → UInt8 × γ
  word16 : γ → UInt16 × γ
  /-- A number from `low` to `high - 1`, both of 16 bits. -/
  between : γ → (low high : Nat) → Nat × γ
  /-- A number below `bound`, a place in a list. -/
  below : γ → (bound : Nat) → Nat × γ
  /-- True once in fifty times. -/
  oneInFifty : γ → Bool × γ
  le_between : ∀ g low high, low ≤ (between g low high).1
  between_lt : ∀ g low high, low < high → (between g low high).1 < high
  below_lt : ∀ g bound, 0 < bound → (below g bound).1 < bound

namespace RandomSource

variable {γ : Type} [RandomSource γ]

def bytes (g : γ) : Nat → List UInt8 × γ
  | 0 => ([], g)
  | n + 1 =>
    let (b, g) := byte g
    let (rest, g) := bytes g n
    (b :: rest, g)

theorem length_bytes (g : γ) (n : Nat) : (bytes g n).1.length = n := by
  induction n generalizing g with
  | zero => rfl
  | succ n ih => simp [bytes, ih]

end RandomSource

/-- A generator whose state is a counter that moves by a fixed odd step and is then mixed. -/
structure SplitMix where
  state : UInt64
  deriving DecidableEq, Repr

namespace SplitMix

def next (g : SplitMix) : UInt64 × SplitMix :=
  let state := g.state + 0x9E3779B97F4A7C15
  let z := (state ^^^ (state >>> 30)) * 0xBF58476D1CE4E5B9
  let z := (z ^^^ (z >>> 27)) * 0x94D049BB133111EB
  (z ^^^ (z >>> 31), ⟨state⟩)

/-- The low half of the next word. -/
def next32 (g : SplitMix) : UInt32 × SplitMix :=
  let (z, g) := g.next
  (z.toUInt32, g)

/-- The period of the generator: as many draws have shown every state. -/
@[irreducible] def period : Nat := UInt64.size

/-- Draws until the product of the draw with `range` leaves a low part of at most `zone`, so that
every high part is as likely; the high part is below `range`. -/
def scaled (draw : SplitMix → Nat × SplitMix) (size range zone : Nat) :
    Nat → SplitMix → Nat × SplitMix
  | 0, g => (0, g)
  | tries + 1, g =>
    let (v, g) := draw g
    let product := v * range
    if product % size ≤ zone then (product / size % range, g)
    else scaled draw size range zone tries g

/-- The number of zeros before the first one of `n` written in 64 bits. -/
def leadingZeros (n : Nat) : Nat :=
  if n = 0 then 64 else 63 - Nat.log2 n

def draw32 (g : SplitMix) : Nat × SplitMix :=
  let (v, g) := g.next32
  (v.toNat, g)

def draw64 (g : SplitMix) : Nat × SplitMix :=
  let (v, g) := g.next
  (v.toNat, g)

def between (g : SplitMix) (low high : Nat) : Nat × SplitMix :=
  let range := high - low
  let zone := UInt32.size - 1 - (UInt32.size - range) % range
  let drawn := scaled draw32 UInt32.size range zone period g
  (low + drawn.1, drawn.2)

def below (g : SplitMix) (bound : Nat) : Nat × SplitMix :=
  let zone := bound * Nat.pow 2 (leadingZeros bound) - 1
  scaled draw64 UInt64.size bound zone period g

/-- A fiftieth of all words, rounded down. -/
def fiftieth : UInt64 := 368934881474191040

theorem scaled_lt (draw : SplitMix → Nat × SplitMix) (size range zone tries : Nat) (g : SplitMix)
    (h : 0 < range) : (scaled draw size range zone tries g).1 < range := by
  induction tries generalizing g with
  | zero => simpa [scaled]
  | succ tries ih =>
    unfold scaled
    dsimp only
    split
    · exact Nat.mod_lt _ h
    · exact ih _

theorem le_between (g : SplitMix) (low high : Nat) : low ≤ (g.between low high).1 := by
  simp only [between, Nat.le_add_right]

theorem between_lt (g : SplitMix) (low high : Nat) (h : low < high) :
    (g.between low high).1 < high := by
  simp only [between]
  have hlt := scaled_lt draw32 UInt32.size (high - low)
    (UInt32.size - 1 - (UInt32.size - (high - low)) % (high - low)) period g (by omega)
  omega

theorem below_lt (g : SplitMix) (bound : Nat) (h : 0 < bound) : (g.below bound).1 < bound := by
  simp only [below]
  exact scaled_lt draw64 UInt64.size bound _ period g h

def nextByte (g : SplitMix) : UInt8 × SplitMix :=
  let (v, g) := g.next32
  (v.toUInt8, g)

def nextWord16 (g : SplitMix) : UInt16 × SplitMix :=
  let (v, g) := g.next32
  (v.toUInt16, g)

def chance (g : SplitMix) : Bool × SplitMix :=
  let (v, g) := g.next
  (v < fiftieth, g)

instance : RandomSource SplitMix where
  byte := nextByte
  word16 := nextWord16
  between := between
  below := below
  oneInFifty := chance
  le_between := le_between
  between_lt := between_lt
  below_lt := below_lt

end SplitMix

end Telemetry
