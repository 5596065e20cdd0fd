/-!
# The ChaCha keystream

Random grids are drawn from the keystream of ChaCha with eight rounds, so that a seed determines
the same grid everywhere. The 64-bit seed is expanded to a 256-bit key by a permuted congruential
generator, and the nonce is zero.

## Main definitions

- `Keystream.expandSeed` — the key of a seed
- `Keystream.block` — sixteen words of the keystream, by their block number
- `Keystream`, `Keystream.next` — the stream as a sequence of 64-bit words
-/

namespace AffineLoops

/-- The state of the cipher: a four by four table of words. -/
abbrev CipherState := Vector UInt32 16

/-- A position in the keystream of a key. -/
structure Keystream where
  /-- The eight words of the key. -/
  key : Vector UInt32 8
  /-- The number of the block that comes after the pending words. -/
  counter : UInt64
  /-- The words of the current block that were not used yet. -/
  pending : List UInt64

namespace Keystream

/-- A word rotated to the left. -/
def rotateLeft (x : UInt32) (n : UInt32) : UInt32 :=
  (x <<< n) ||| (x >>> (32 - n))

/-- The next state of the generator that expands seeds. -/
def advanceSeed (s : UInt64) : UInt64 :=
  s * 6364136223846793005 + 11634580027462260723

/-- The word that a state of the seed generator gives out: its high bits, folded and rotated by an
amount taken from the highest five. -/
def seedWord (s : UInt64) : UInt32 :=
  let x := (((s >>> 18) ^^^ s) >>> 27).toUInt32
  let r := (s >>> 59).toUInt32
  (x >>> r) ||| (x <<< ((32 - r) % 32))

/-- The words that follow a state of the seed generator. -/
def seedWords : Nat → UInt64 → List UInt32
  | 0, _ => []
  | n + 1, s => seedWord (advanceSeed s) :: seedWords n (advanceSeed s)

/-- The key of a seed. -/
def expandSeed (seed : UInt64) : Vector UInt32 8 :=
  let words := seedWords 8 seed
  Vector.ofFn fun i => (words[i.val]?).getD 0

/-- The quarter round on four words of the state. -/
def quarterRound (s : CipherState) (a b c d : Fin 16) : CipherState :=
  let xa := s[a] + s[b]
  let xd := rotateLeft (s[d] ^^^ xa) 16
  let xc := s[c] + xd
  let xb := rotateLeft (s[b] ^^^ xc) 12
  let xa := xa + xb
  let xd := rotateLeft (xd ^^^ xa) 8
  let xc := xc + xd
  let xb := rotateLeft (xb ^^^ xc) 7
  (((s.set a xa).set b xb).set c xc).set d xd

/-- The quarter rounds of one double round: first the columns, then the diagonals. -/
def lanes : List (Fin 16 × Fin 16 × Fin 16 × Fin 16) :=
  [(0, 4, 8, 12), (1, 5, 9, 13), (2, 6, 10, 14), (3, 7, 11, 15),
    (0, 5, 10, 15), (1, 6, 11, 12), (2, 7, 8, 13), (3, 4, 9, 14)]

/-- Two rounds on the whole state. -/
def doubleRound (s : CipherState) : CipherState :=
  lanes.foldl (fun s (a, b, c, d) => quarterRound s a b c d) s

/-- The state before the rounds: constants, key, block number and a nonce of zero. -/
def initial (key : Vector UInt32 8) (counter : UInt64) : CipherState :=
  #v[0x61707865, 0x3320646e, 0x79622d32, 0x6b206574,
    key[0], key[1], key[2], key[3], key[4], key[5], key[6], key[7],
    counter.toUInt32, (counter >>> 32).toUInt32, 0, 0]

/-- One block of the keystream: the state after eight rounds, added to the state before them. -/
def block (key : Vector UInt32 8) (counter : UInt64) : CipherState :=
  let start := initial key counter
  Vector.zipWith (· + ·) start (doubleRound (doubleRound (doubleRound (doubleRound start))))

/-- The words of a block in pairs, the low half of a 64-bit word first. -/
def pairs : List UInt32 → List UInt64
  | lo :: hi :: rest => ((hi.toUInt64 <<< 32) ||| lo.toUInt64) :: pairs rest
  | _ => []

/-- The beginning of the keystream of a seed. -/
def ofSeed (seed : UInt64) : Keystream :=
  ⟨expandSeed seed, 0, []⟩

/-- The next 64-bit word, and the stream after it. -/
def next (k : Keystream) : UInt64 × Keystream :=
  match k.pending with
  | w :: rest => (w, { k with pending := rest })
  | [] =>
    match pairs (block k.key k.counter).toList with
    | w :: rest => (w, ⟨k.key, k.counter + 1, rest⟩)
    | [] => (0, k)

end Keystream

end AffineLoops
