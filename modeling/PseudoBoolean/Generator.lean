import PseudoBoolean.Sampler

set_option autoImplicit false

namespace PseudoBoolean

structure Lanes where
  w0 : UInt32
  w1 : UInt32
  w2 : UInt32
  w3 : UInt32
deriving DecidableEq

namespace Lanes

def map (f : UInt32 → UInt32) (a : Lanes) : Lanes :=
  ⟨f a.w0, f a.w1, f a.w2, f a.w3⟩

def zip (f : UInt32 → UInt32 → UInt32) (a b : Lanes) : Lanes :=
  ⟨f a.w0 b.w0, f a.w1 b.w1, f a.w2 b.w2, f a.w3 b.w3⟩

instance : Add Lanes := ⟨zip (· + ·)⟩
instance : XorOp Lanes := ⟨zip (· ^^^ ·)⟩

def turn (a : Lanes) : Lanes :=
  ⟨a.w1, a.w2, a.w3, a.w0⟩

def toList (a : Lanes) : List UInt32 :=
  [a.w0, a.w1, a.w2, a.w3]

end Lanes

def rotateLeft (w n : UInt32) : UInt32 :=
  (w <<< n) ||| (w >>> (32 - n))

def rotateRight (w n : UInt32) : UInt32 :=
  (w >>> n) ||| (w <<< (32 - n))

namespace ChaCha

structure Block where
  a : Lanes
  b : Lanes
  c : Lanes
  d : Lanes
deriving DecidableEq

namespace Block

def columns (s : Block) : Block :=
  let a := s.a + s.b
  let d := (s.d ^^^ a).map (rotateLeft · 16)
  let c := s.c + d
  let b := (s.b ^^^ c).map (rotateLeft · 12)
  let a := a + b
  let d := (d ^^^ a).map (rotateLeft · 8)
  let c := c + d
  let b := (b ^^^ c).map (rotateLeft · 7)
  ⟨a, b, c, d⟩

def diagonals (s : Block) : Block :=
  let s := columns ⟨s.a, s.b.turn, s.c.turn.turn, s.d.turn.turn.turn⟩
  ⟨s.a, s.b.turn.turn.turn, s.c.turn.turn, s.d.turn⟩

def doubleRounds : Nat → Block → Block
  | 0, s => s
  | n + 1, s => doubleRounds n s.columns.diagonals

def add (s t : Block) : Block :=
  ⟨s.a + t.a, s.b + t.b, s.c + t.c, s.d + t.d⟩

def toList (s : Block) : List UInt32 :=
  s.a.toList ++ s.b.toList ++ s.c.toList ++ s.d.toList

end Block

structure Key where
  low : Lanes
  high : Lanes
deriving DecidableEq

def constants : Lanes :=
  ⟨0x61707865, 0x3320646e, 0x79622d32, 0x6b206574⟩

def block (key : Key) (counter : UInt64) : List UInt32 :=
  let start : Block :=
    ⟨constants, key.low, key.high, ⟨counter.toUInt32, (counter >>> 32).toUInt32, 0, 0⟩⟩
  (start.doubleRounds 4 |>.add start).toList

def stretch (state : UInt64) : UInt64 :=
  state * 6364136223846793005 + 11634580027462260723

def stretchedWord (state : UInt64) : UInt32 :=
  rotateRight (((state >>> 18) ^^^ state) >>> 27).toUInt32 (state >>> 59).toUInt32

def stretchedWords : Nat → UInt64 → List UInt32
  | 0, _ => []
  | n + 1, state => stretchedWord (stretch state) :: stretchedWords n (stretch state)

def Key.ofSeed (seed : UInt64) : Key :=
  match stretchedWords 8 seed with
  | [a, b, c, d, e, f, g, h] => ⟨⟨a, b, c, d⟩, ⟨e, f, g, h⟩⟩
  | _ => ⟨⟨0, 0, 0, 0⟩, ⟨0, 0, 0, 0⟩⟩

end ChaCha

structure Generator where
  key : ChaCha.Key
  unread : List UInt32
  next : UInt64
deriving DecidableEq

namespace Generator

def ofSeed (seed : UInt64) : Generator :=
  ⟨ChaCha.Key.ofSeed seed, [], 0⟩

def word : StateM Generator UInt32 := fun g =>
  match g.unread with
  | w :: rest => (w, { g with unread := rest })
  | [] =>
    let words := ChaCha.block g.key g.next
    (words.headD 0, { g with unread := words.tail, next := g.next + 1 })

-- The low word is drawn first.
def doubleWord : StateM Generator UInt64 := do
  let low ← word
  let high ← word
  return (high.toUInt64 <<< 32) ||| low.toUInt64

def coin : StateM Generator Bool := do
  return (← doubleWord) < 0x8000000000000000

-- Where the low half leaves it open whether the fraction carries, a second word decides.
def scaled (size : Nat) (draw : StateM Generator Nat) (n : Nat) : StateM Generator Nat := do
  let product := (← draw) * n
  let high := product / size
  let low := product % size
  if size - n < low then
    let more := (← draw) * n / size
    return if size ≤ low + more then high + 1 else high
  else return high

def below (n : Nat) : StateM Generator Nat :=
  if n < UInt32.size then scaled UInt32.size (UInt32.toNat <$> word) n
  else scaled UInt64.size (UInt64.toNat <$> doubleWord) n

def unit : StateM Generator Float := do
  return ((← doubleWord) >>> 11).toFloat / 9007199254740992

def dice : Dice Generator where
  coin := coin
  below := below
  unit := unit

end Generator

namespace Binary64

def divideToNearest (n d : Nat) : Nat :=
  let q := n / d
  let r := n % d
  if d < 2 * r ∨ (2 * r = d ∧ q % 2 = 1) then q + 1 else q

-- The exponents end at `-1074`, also for numbers that then keep fewer than 53 bits.
def exponent (n d : Nat) : Int :=
  let e : Int := n.log2 - d.log2
  let whole := d <<< e.toNat ≤ n <<< (-e).toNat
  max (if whole then e - 52 else e - 53) (-1074)

def infinity : Nat := 0x7FF0000000000000

def magnitudeBits (n d : Nat) : Nat :=
  if n = 0 then 0
  else
    let e := exponent n d
    let m := divideToNearest (n <<< (-e).toNat) (d <<< e.toNat)
    min (m + (e + 1074).toNat <<< 52) infinity

def signBit : Nat := 0x8000000000000000

def bits (q : Rat) : Nat :=
  magnitudeBits q.num.natAbs q.den + if q < 0 then signBit else 0

def ofRat (q : Rat) : Float :=
  Float.ofBits (bits q).toUInt64

def nearest? (q : Rat) : Option Float :=
  some (ofRat q)

end Binary64

end PseudoBoolean
