import LineBasic.Random.Cipher

/-! The random numbers of a session: a stream of words under a key, a place in the stream, and the
number drawn last. A negative argument starts a new stream that depends on the argument alone. -/

namespace LineBasic

structure Random where
  key : Vector UInt32 8
  /-- How many numbers were drawn from the stream. -/
  drawn : Nat
  last : Float

namespace Random

/-- Words of the stream that make up one number. A block holds eight such pairs. -/
def pair (key : Vector UInt32 8) (n : Nat) : UInt64 :=
  let b := Cipher.block key (n / 8)
  let low := b.toArray.getD (n % 8 * 2) 0
  let high := b.toArray.getD (n % 8 * 2 + 1) 0
  low.toUInt64 ||| (high.toUInt64 <<< 32)

/-- The `n`-th number of a stream, at least zero and below one: the 53 high bits of a pair as a
fraction. -/
def number (key : Vector UInt32 8) (n : Nat) : Float :=
  (pair key n >>> 11).toFloat * Float.ofScientific (Nat.pow 5 53) true 53

/-- Draw the next number. -/
def draw (r : Random) : Random :=
  { r with drawn := r.drawn + 1, last := number r.key r.drawn }

/-- One step of the generator that spreads a seed over a key. -/
def stir (state : UInt64) : UInt64 := state * 6364136223846793005 + 11634580027462260723

/-- The word that a state of that generator shows: folded, shortened and rotated by its top bits. -/
def keyWord (state : UInt64) : UInt32 :=
  let x := (((state >>> 18) ^^^ state) >>> 27).toUInt32
  let n := (state >>> 59).toUInt32
  (x >>> n) ||| (x <<< ((32 - n) % 32))

/-- The states after each of the next `n` steps. -/
def states : Nat → UInt64 → List UInt64
  | 0, _ => []
  | n + 1, state => stir state :: states n (stir state)

def keyOf (seed : UInt64) : Vector UInt32 8 :=
  let words := ((states 8 seed).map keyWord).toArray
  Vector.ofFn fun i : Fin 8 => words.getD i 0

/-- A stream under a seed, with one number drawn. -/
def seeded (seed : UInt64) : Random := draw ⟨keyOf seed, 0, 0⟩

/-- `RND`: a negative argument starts a new stream, a positive one draws, and zero shows the last
number again. -/
def rnd (r : Random) (x : Float) : Float × Random :=
  let r := if x < 0 then seeded x.toBits else if x > 0 then r.draw else r
  (r.last, r)

end Random

end LineBasic
