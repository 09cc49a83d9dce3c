import Disentangle.Text

/-!
The MD5 digest of a sequence of bytes, as hexadecimal text.
-/

namespace Disentangle.Md5

/-- The state of a digest: four words. -/
structure State where
  a : UInt32
  b : UInt32
  c : UInt32
  d : UInt32

def initial : State := ⟨0x67452301, 0xefcdab89, 0x98badcfe, 0x10325476⟩

/-- The distance of the rotation in each of the 64 steps. -/
def rotations : List UInt32 :=
  let rounds : List (List UInt32) :=
    [[7, 12, 17, 22], [5, 9, 14, 20], [4, 11, 16, 23], [6, 10, 15, 21]]
  rounds.flatMap fun round => round ++ round ++ round ++ round

/-- The constant that is added in each of the 64 steps: the whole part of 2³² times the
absolute sine of the number of the step, counted from one. -/
def constants : List UInt32 :=
  [0xd76aa478, 0xe8c7b756, 0x242070db, 0xc1bdceee, 0xf57c0faf, 0x4787c62a,
   0xa8304613, 0xfd469501, 0x698098d8, 0x8b44f7af, 0xffff5bb1, 0x895cd7be,
   0x6b901122, 0xfd987193, 0xa679438e, 0x49b40821, 0xf61e2562, 0xc040b340,
   0x265e5a51, 0xe9b6c7aa, 0xd62f105d, 0x02441453, 0xd8a1e681, 0xe7d3fbc8,
   0x21e1cde6, 0xc33707d6, 0xf4d50d87, 0x455a14ed, 0xa9e3e905, 0xfcefa3f8,
   0x676f02d9, 0x8d2a4c8a, 0xfffa3942, 0x8771f681, 0x6d9d6122, 0xfde5380c,
   0xa4beea44, 0x4bdecfa9, 0xf6bb4b60, 0xbebfbc70, 0x289b7ec6, 0xeaa127fa,
   0xd4ef3085, 0x04881d05, 0xd9d4d039, 0xe6db99e5, 0x1fa27cf8, 0xc4ac5665,
   0xf4292244, 0x432aff97, 0xab9423a7, 0xfc93a039, 0x655b59c3, 0x8f0ccc92,
   0xffeff47d, 0x85845dd1, 0x6fa87e4f, 0xfe2ce6e0, 0xa3014314, 0x4e0811a1,
   0xf7537e82, 0xbd3af235, 0x2ad7d2bb, 0xeb86d391]

/-- The word with its bits turned to the left. -/
def rotateLeft (x distance : UInt32) : UInt32 :=
  (x <<< distance) ||| (x >>> (32 - distance))

/-- One of the 64 steps on a block of sixteen words. -/
def step (block : Array UInt32) (s : State) (i : Nat) (constant distance : UInt32) : State :=
  let (mixed, k) :=
    if i < 16 then ((s.b &&& s.c) ||| (~~~s.b &&& s.d), i)
    else if i < 32 then ((s.d &&& s.b) ||| (~~~s.d &&& s.c), (5 * i + 1) % 16)
    else if i < 48 then (s.b ^^^ s.c ^^^ s.d, (3 * i + 5) % 16)
    else (s.c ^^^ (s.b ||| ~~~s.d), (7 * i) % 16)
  let sum := s.a + mixed + constant + block.getD k 0
  ⟨s.d, s.b + rotateLeft sum distance, s.b, s.c⟩

def compress (s : State) (block : Array UInt32) : State :=
  let steps := (constants.zip rotations).zipIdx
  let t := steps.foldl (fun t ((constant, distance), i) => step block t i constant distance) s
  ⟨s.a + t.a, s.b + t.b, s.c + t.c, s.d + t.d⟩

/-- The lowest `count` bytes of a number, the least one first. -/
def littleEndian (count n : Nat) : List UInt8 :=
  (List.range count).map fun i => UInt8.ofNat (n >>> (8 * i))

/-- The bytes with a one bit, zeros and their length in bits behind them, so that they fill
whole blocks of 64 bytes. -/
def padded (bytes : List UInt8) : List UInt8 :=
  let zeros := (119 - bytes.length % 64) % 64
  bytes ++ 0x80 :: List.replicate zeros 0 ++ littleEndian 8 (8 * bytes.length)

/-- Bytes as words, the least byte of each first. -/
def words : List UInt8 → List UInt32
  | a :: b :: c :: d :: rest =>
    (a.toUInt32 ||| (b.toUInt32 <<< 8) ||| (c.toUInt32 <<< 16) ||| (d.toUInt32 <<< 24)) ::
      words rest
  | _ => []

/-- The state after `n` blocks of sixteen words. -/
def digestBlocks : Nat → State → List UInt32 → State
  | 0, s, _ => s
  | n + 1, s, ws => digestBlocks n (compress s (ws.take 16).toArray) (ws.drop 16)

def hexByte (b : UInt8) : Text :=
  [Nat.digitChar (b.toNat / 16), Nat.digitChar (b.toNat % 16)]

def hexDigest (bytes : List UInt8) : Text :=
  let ws := words (padded bytes)
  let s := digestBlocks (ws.length / 16) initial ws
  [s.a, s.b, s.c, s.d].flatMap fun word => (littleEndian 4 word.toNat).flatMap hexByte

end Disentangle.Md5
