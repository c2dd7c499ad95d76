/-! The ChaCha block function with twelve rounds, as a source of evenly spread words: a key of eight
words and a block number give sixteen words. -/

namespace LineBasic.Cipher

abbrev Block := Vector UInt32 16

def rotateLeft (x : UInt32) (n : UInt32) : UInt32 := (x <<< n) ||| (x >>> (32 - n))

/-- Stir four words of a block, given by their places. -/
def quarter (b : Block) (i j k l : Fin 16) : Block :=
  let (x, y, z, w) := (b[i], b[j], b[k], b[l])
  let x := x + y
  let w := rotateLeft (w ^^^ x) 16
  let z := z + w
  let y := rotateLeft (y ^^^ z) 12
  let x := x + y
  let w := rotateLeft (w ^^^ x) 8
  let z := z + w
  let y := rotateLeft (y ^^^ z) 7
  (((b.set i x).set j y).set k z).set l w

/-- A round over the columns and one over the diagonals. -/
def doubleRound (b : Block) : Block :=
  let b := quarter b 0 4 8 12
  let b := quarter b 1 5 9 13
  let b := quarter b 2 6 10 14
  let b := quarter b 3 7 11 15
  let b := quarter b 0 5 10 15
  let b := quarter b 1 6 11 12
  let b := quarter b 2 7 8 13
  quarter b 3 4 9 14

def doubleRounds : Nat → Block → Block
  | 0, b => b
  | n + 1, b => doubleRounds n (doubleRound b)

/-- The block before the rounds: four constants, the key, the block number in two words, and two
words that are zero. -/
def initial (key : Vector UInt32 8) (number : Nat) : Block :=
  let head : Vector UInt32 4 := #v[0x61707865, 0x3320646e, 0x79622d32, 0x6b206574]
  let tail : Vector UInt32 4 := #v[number.toUInt32, (number / Nat.pow 2 32).toUInt32, 0, 0]
  head ++ key ++ tail

def block (key : Vector UInt32 8) (number : Nat) : Block :=
  let b := initial key number
  Vector.zipWith (· + ·) b (doubleRounds 6 b)

end LineBasic.Cipher
