import Lindenmayer.Random.Source

/-! The keystream of a block cipher as a source of words: 12 rounds over a key, a block counter from
0, and no nonce. -/
namespace Lindenmayer

/-- A keystream by its key of eight words, and the number of words already drawn from it. -/
structure ChaCha where
  key : Vector UInt32 8
  drawn : Nat

namespace ChaCha

/-- The sixteen words that a block is computed in. -/
abbrev Block := Vector UInt32 16

def rotate (x : UInt32) (n : UInt32) : UInt32 := x <<< n ||| x >>> (32 - n)

/-- One step on four words: a sum, and the mix of another word with it. -/
def quarter (s : Block) (a b c d : Fin 16) : Block :=
  let mix (s : Block) (x y z : Fin 16) (n : UInt32) : Block :=
    let s := s.set x (s[x] + s[y])
    s.set z (rotate (s[z] ^^^ s[x]) n)
  mix (mix (mix (mix s a b d 16) c d b 12) a b d 8) c d b 7

def doubleRound (s : Block) : Block :=
  let s := quarter (quarter (quarter (quarter s 0 4 8 12) 1 5 9 13) 2 6 10 14) 3 7 11 15
  quarter (quarter (quarter (quarter s 0 5 10 15) 1 6 11 12) 2 7 8 13) 3 4 9 14

/-- The block before the rounds: constants, key, counter, and zeros. -/
def initial (key : Vector UInt32 8) (counter : Nat) : Block :=
  let low := UInt32.ofNat counter
  let high := UInt32.ofNat (counter / Nat.pow 2 32)
  #v[0x61707865, 0x3320646e, 0x79622d32, 0x6b206574,
    key[0], key[1], key[2], key[3], key[4], key[5], key[6], key[7], low, high, 0, 0]

def block (key : Vector UInt32 8) (counter : Nat) : Block :=
  let start := initial key counter
  let mixed := Nat.repeat doubleRound 6 start
  Vector.zipWith (· + ·) start mixed

/-- The word of the keystream at an index. -/
def word (key : Vector UInt32 8) (index : Nat) : UInt32 :=
  (block key (index / 16)).get ⟨index % 16, Nat.mod_lt _ (by decide)⟩

/-- Two words of the keystream as one, the first as its low half. -/
def next (s : ChaCha) : UInt64 × ChaCha :=
  let low := (word s.key s.drawn).toUInt64
  let high := (word s.key (s.drawn + 1)).toUInt64
  (high <<< 32 ||| low, { s with drawn := s.drawn + 2 })

instance : WordSource ChaCha := ⟨next⟩

/-- One step of the generator that spreads a seed over the key. -/
def spread (s : UInt64) : UInt32 × UInt64 :=
  let t := s * 6364136223846793005 + 11634580027462260723
  let x := (((t >>> 18) ^^^ t) >>> 27).toUInt32
  let n := (t >>> 59).toUInt32
  (x >>> n ||| x <<< ((32 - n) % 32), t)

def spreads : Nat → UInt64 → List UInt32
  | 0, _ => []
  | n + 1, s => let (w, t) := spread s; w :: spreads n t

def ofSeed (seed : UInt64) : ChaCha :=
  let ws := spreads 8 seed
  ⟨Vector.ofFn fun i => ws.getD i 0, 0⟩

/-- The keystream whose key is 32 bytes, the lowest byte of each word first. -/
def ofBytes (bytes : ByteArray) : ChaCha :=
  let byte (i : Nat) : UInt32 := (bytes.data.getD i 0).toUInt32
  let word (i : Nat) : UInt32 :=
    byte i ||| byte (i + 1) <<< 8 ||| byte (i + 2) <<< 16 ||| byte (i + 3) <<< 24
  ⟨Vector.ofFn fun i => word (4 * i), 0⟩

end ChaCha
end Lindenmayer
