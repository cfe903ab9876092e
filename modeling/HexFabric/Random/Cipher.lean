import HexFabric.Random.Source

/-! Random words from the ChaCha stream cipher with twenty rounds. The key comes from a 64-bit seed,
and the words are those of the key stream. -/

namespace HexFabric.Cipher

/-- The sixteen words on which the cipher works. -/
abbrev Block : Type := Vector UInt32 16

/-- `w` rotated by `n` places to the left. -/
def rotateLeft (w n : UInt32) : UInt32 := (w <<< n) ||| (w >>> (32 - n))

def quarterRound (a b c d : Fin 16) (s : Block) : Block :=
  let s := s.set a (s[a] + s[b])
  let s := s.set d (rotateLeft (s[d] ^^^ s[a]) 16)
  let s := s.set c (s[c] + s[d])
  let s := s.set b (rotateLeft (s[b] ^^^ s[c]) 12)
  let s := s.set a (s[a] + s[b])
  let s := s.set d (rotateLeft (s[d] ^^^ s[a]) 8)
  let s := s.set c (s[c] + s[d])
  s.set b (rotateLeft (s[b] ^^^ s[c]) 7)

/-- Mixes the columns, then the diagonals. -/
def doubleRound (s : Block) : Block :=
  let s := quarterRound 0 4 8 12 s
  let s := quarterRound 1 5 9 13 s
  let s := quarterRound 2 6 10 14 s
  let s := quarterRound 3 7 11 15 s
  let s := quarterRound 0 5 10 15 s
  let s := quarterRound 1 6 11 12 s
  let s := quarterRound 2 7 8 13 s
  quarterRound 3 4 9 14 s

def repeated {α : Type} (f : α → α) : Nat → α → α
  | 0, a => a
  | n + 1, a => repeated f n (f a)

abbrev Key : Type := Vector UInt32 8

/-- The block before mixing: constants, key, the number of the block, and stream zero. -/
def start (key : Key) (counter : UInt64) : Block :=
  #v[0x61707865, 0x3320646e, 0x79622d32, 0x6b206574,
    key[0], key[1], key[2], key[3], key[4], key[5], key[6], key[7],
    counter.toUInt32, (counter >>> 32).toUInt32, 0, 0]

def block (key : Key) (counter : UInt64) : Block :=
  let s := start key counter
  (repeated doubleRound 10 s).zipWith (· + ·) s

/-- Two words as one, the lower first. -/
def join (lo hi : UInt32) : UInt64 := lo.toUInt64 ||| (hi.toUInt64 <<< 32)

/-- The first long word of a block. -/
def firstWord (b : Block) : UInt64 := join b[0] b[1]

/-- The other seven long words of a block. -/
def otherWords (b : Block) : List UInt64 :=
  [join b[2] b[3], join b[4] b[5], join b[6] b[7], join b[8] b[9], join b[10] b[11],
    join b[12] b[13], join b[14] b[15]]

structure Stream where
  key : Key
  counter : UInt64
  /-- What is left of the block before it. -/
  pending : List UInt64

/-- The next long word of the key stream. -/
def Stream.next (s : Stream) : UInt64 × Stream :=
  match s.pending with
  | w :: rest => (w, { s with pending := rest })
  | [] =>
    let b := block s.key s.counter
    (firstWord b, { s with counter := s.counter + 1, pending := otherWords b })

instance : WordSource Stream := ⟨Stream.next⟩

/-! ### Keys from seeds -/

/-- A step of the generator that fills the key. -/
def advance (state : UInt64) : UInt64 := state * 6364136223846793005 + 11634580027462260723

/-- The word that a state of that generator gives: some of its bits, rotated by its topmost ones. -/
def output (state : UInt64) : UInt32 :=
  let mixed := (((state >>> 18) ^^^ state) >>> 27).toUInt32
  let places := (state >>> 59).toUInt32
  (mixed >>> places) ||| (mixed <<< ((32 - places) % 32))

/-- The key of a seed: the words of eight steps of the generator. -/
def keyOfSeed (seed : UInt64) : Key :=
  Vector.ofFn fun i => output (repeated advance (i.val + 1) seed)

/-- The key stream of a seed, from its start. -/
def Stream.ofSeed (seed : UInt64) : Stream := ⟨keyOfSeed seed, 0, []⟩

end HexFabric.Cipher
