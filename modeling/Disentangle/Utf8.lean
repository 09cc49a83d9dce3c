import Disentangle.Text

/-!
The UTF-8 encoding of texts. A decoder tells where the first undecodable bytes stand and what is
wrong with them.
-/

namespace Disentangle

/-- Why bytes are not the encoding of a character. -/
inductive Utf8.Defect where
  /-- No character begins with this byte. -/
  | start
  /-- A byte that should go on with a character does not. -/
  | continuation
  /-- The bytes end inside a character. -/
  | cutOff
  deriving DecidableEq, Repr

/-- The first undecodable bytes: the offset of the first one, how many they are, its value, and
what is wrong. -/
structure Utf8.DecodeError where
  position : Nat
  width : Nat
  byte : UInt8
  defect : Utf8.Defect
  deriving DecidableEq, Repr

namespace Utf8

def Defect.message : Defect → Text
  | .start => "invalid start byte".toList
  | .continuation => "invalid continuation byte".toList
  | .cutOff => "unexpected end of data".toList

def DecodeError.message (e : DecodeError) : Text :=
  let place :=
    if e.width = 1 then
      "byte 0x".toList ++
        [Nat.digitChar (e.byte.toNat / 16), Nat.digitChar (e.byte.toNat % 16)] ++
        " in position ".toList ++ Text.decimal e.position
    else
      "bytes in position ".toList ++ Text.decimal e.position ++ '-' ::
        Text.decimal (e.position + e.width - 1)
  "'utf-8' codec can't decode ".toList ++ place ++ ": ".toList ++ e.defect.message

def encodeChar (c : Char) : List UInt8 :=
  let n := c.toNat
  let tail (unit : Nat) : UInt8 := UInt8.ofNat (0x80 + n / unit % 0x40)
  if n < 0x80 then [UInt8.ofNat n]
  else if n < 0x800 then [UInt8.ofNat (0xC0 + n / 0x40), tail 1]
  else if n < 0x10000 then [UInt8.ofNat (0xE0 + n / 0x1000), tail 0x40, tail 1]
  else [UInt8.ofNat (0xF0 + n / 0x40000), tail 0x1000, tail 0x40, tail 1]

def encode (t : Text) : List UInt8 :=
  t.flatMap encodeChar

def isContinuation (b : UInt8) : Bool :=
  0x80 ≤ b.toNat && b.toNat < 0xC0

/-- Whether `second` may follow the first byte `lead` of a character: no character has two
encodings, surrogates have none, and the last code point is U+10FFFF. -/
def mayFollow (lead second : UInt8) : Bool :=
  isContinuation second &&
    (if lead = 0xE0 then 0xA0 ≤ second.toNat
    else if lead = 0xED then second.toNat < 0xA0
    else if lead = 0xF0 then 0x90 ≤ second.toNat
    else if lead = 0xF4 then second.toNat < 0x90
    else true)

def payload (b : UInt8) : Nat := b.toNat % 64

/-- The character whose encoding begins with `lead` and goes on in `rest`, with the bytes behind
it; or how many bytes are undecodable and why. -/
def decodeChar (lead : UInt8) (rest : List UInt8) : Except (Nat × Defect) (Char × List UInt8) :=
  let n := lead.toNat
  if n < 0x80 then .ok (Char.ofNat n, rest)
  else if n < 0xC2 || 0xF4 < n then .error (1, .start)
  else match rest with
    | [] => .error (1, .cutOff)
    | b1 :: rest =>
      if !mayFollow lead b1 then .error (1, .continuation)
      else if n < 0xE0 then .ok (Char.ofNat (n % 32 * 64 + payload b1), rest)
      else match rest with
        | [] => .error (2, .cutOff)
        | b2 :: rest =>
          if !isContinuation b2 then .error (2, .continuation)
          else if n < 0xF0 then
            .ok (Char.ofNat ((n % 16 * 64 + payload b1) * 64 + payload b2), rest)
          else match rest with
            | [] => .error (3, .cutOff)
            | b3 :: rest =>
              if !isContinuation b3 then .error (3, .continuation)
              else
                .ok (Char.ofNat
                  (((n % 8 * 64 + payload b1) * 64 + payload b2) * 64 + payload b3), rest)

/-- The text that bytes encode, where `position` bytes came before them. The first argument
bounds the number of characters. -/
def decodeFrom : Nat → Nat → List UInt8 → Except DecodeError Text
  | 0, _, _ => .ok []
  | _, _, [] => .ok []
  | n + 1, position, lead :: rest =>
    match decodeChar lead rest with
    | .error (width, defect) => .error ⟨position, width, lead, defect⟩
    | .ok (c, left) =>
      (decodeFrom n (position + 1 + (rest.length - left.length)) left).map (c :: ·)

def decode (bytes : List UInt8) : Except DecodeError Text :=
  decodeFrom bytes.length 0 bytes

/-- The number of bytes that encode the first `n` characters of a text. -/
def bytesBefore (text : Text) (n : Nat) : Nat :=
  (encode (text.take n)).length

/-- That bytes encode a text. -/
def IsText (bytes : List UInt8) : Prop :=
  (decode bytes).isOk = true

/-- The text that bytes encode. -/
def textOf (bytes : List UInt8) (h : IsText bytes) : Text :=
  match hdecode : decode bytes with
  | .ok text => text
  | .error _ => absurd h (by simp [IsText, hdecode, Except.isOk, Except.toBool])

end Utf8

end Disentangle
