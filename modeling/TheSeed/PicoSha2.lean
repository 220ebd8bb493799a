import TheSeed.Library.Sha256

namespace TheSeed.PicoSha2

open Bytes
open Sha256 (Eight)

/-! The SHA-256 that the fingerprints are taken with: words of `unsigned long`, 64 bits of which 32 are meant, and a
hasher that is given its message piece by piece. -/

/-- `word_t` -/
abbrev WordT := BitVec 64

def mask32bit (x : WordT) : WordT := x &&& 0xffffffff

def addConstant : List WordT :=
  [0x428a2f98, 0x71374491, 0xb5c0fbcf, 0xe9b5dba5, 0x3956c25b, 0x59f111f1, 0x923f82a4, 0xab1c5ed5, 0xd807aa98, 0x12835b01,
    0x243185be, 0x550c7dc3, 0x72be5d74, 0x80deb1fe, 0x9bdc06a7, 0xc19bf174, 0xe49b69c1, 0xefbe4786, 0x0fc19dc6, 0x240ca1cc,
    0x2de92c6f, 0x4a7484aa, 0x5cb0a9dc, 0x76f988da, 0x983e5152, 0xa831c66d, 0xb00327c8, 0xbf597fc7, 0xc6e00bf3, 0xd5a79147,
    0x06ca6351, 0x14292967, 0x27b70a85, 0x2e1b2138, 0x4d2c6dfc, 0x53380d13, 0x650a7354, 0x766a0abb, 0x81c2c92e, 0x92722c85,
    0xa2bfe8a1, 0xa81a664b, 0xc24b8b70, 0xc76c51a3, 0xd192e819, 0xd6990624, 0xf40e3585, 0x106aa070, 0x19a4c116, 0x1e376c08,
    0x2748774c, 0x34b0bcb5, 0x391c0cb3, 0x4ed8aa4a, 0x5b9cca4f, 0x682e6ff3, 0x748f82ee, 0x78a5636f, 0x84c87814, 0x8cc70208,
    0x90befffa, 0xa4506ceb, 0xbef9a3f7, 0xc67178f2]

def initialMessageDigest : Eight WordT :=
  ⟨0x6a09e667, 0xbb67ae85, 0x3c6ef372, 0xa54ff53a, 0x510e527f, 0x9b05688c, 0x1f83d9ab, 0x5be0cd19⟩

def ch (x y z : WordT) : WordT := (x &&& y) ^^^ (~~~x &&& z)

def maj (x y z : WordT) : WordT := (x &&& y) ^^^ (x &&& z) ^^^ (y &&& z)

def rotr (x : WordT) (n : Nat) : WordT := mask32bit ((x >>> n) ||| (x <<< (32 - n)))

def bsig0 (x : WordT) : WordT := rotr x 2 ^^^ rotr x 13 ^^^ rotr x 22

def bsig1 (x : WordT) : WordT := rotr x 6 ^^^ rotr x 11 ^^^ rotr x 25

def shr (x : WordT) (n : Nat) : WordT := x >>> n

def ssig0 (x : WordT) : WordT := rotr x 7 ^^^ rotr x 18 ^^^ shr x 3

def ssig1 (x : WordT) : WordT := rotr x 17 ^^^ rotr x 19 ^^^ shr x 10

/-! `hash256_block` -/

/-- `static_cast<word_t>(mask_8bit(*(first + i)))` -/
def byteAt (block : List UInt8) (i : Nat) : WordT := BitVec.ofNat 64 (block.getD i 0).toNat

/-- `w[i]` of the first loop -/
def wordAt (block : List UInt8) (i : Nat) : WordT :=
  (byteAt block (i * 4) <<< 24) ||| (byteAt block (i * 4 + 1) <<< 16) ||| (byteAt block (i * 4 + 2) <<< 8) |||
    byteAt block (i * 4 + 3)

/-- The second loop, with as many turns as words are missing. -/
def scheduleLoop : Nat → List WordT → List WordT
  | 0, w => w
  | turns + 1, w =>
      let i := w.length
      scheduleLoop turns
        (w ++ [mask32bit (ssig1 (w.getD (i - 2) 0) + w.getD (i - 7) 0 + ssig0 (w.getD (i - 15) 0) + w.getD (i - 16) 0)])

/-- One turn of the third loop, with its constant and its word. -/
def roundStep (s : Eight WordT) (key : WordT × WordT) : Eight WordT :=
  let temp1 := s.h + bsig1 s.e + ch s.e s.f s.g + key.1 + key.2
  let temp2 := bsig0 s.a + maj s.a s.b s.c
  ⟨mask32bit (temp1 + temp2), s.a, s.b, s.c, mask32bit (s.d + temp1), s.e, s.f, s.g⟩

def hash256Block (messageDigest : Eight WordT) (block : List UInt8) : Eight WordT :=
  let w := scheduleLoop 48 ((List.range 16).map (wordAt block))
  let s := (addConstant.zip w).foldl roundStep messageDigest
  (messageDigest.zipWith (· + ·) s).map mask32bit

/-! `hash256_one_by_one` -/

structure Hasher where
  buffer : List UInt8
  /-- the number of bytes, in four digits of 16 bits, the lowest first -/
  dataLengthDigits : List WordT
  h : Eight WordT

def init : Hasher := ⟨[], [0, 0, 0, 0], initialMessageDigest⟩

/-- The loop of `add_to_data_length` from one digit on. -/
def carryLoop : List WordT → WordT → List WordT
  | [], _ => []
  | digit :: rest, carry =>
      let digit := digit + carry
      if 65536 ≤ digit.toNat then (digit &&& 65535) :: carryLoop rest (digit >>> 16) else digit :: rest

def addToDataLength (digits : List WordT) (n : WordT) : List WordT :=
  match digits with
  | [] => []
  | digit :: rest => carryLoop ((digit + n) :: rest) 0

/-- Blocks as long as the buffer has one. The first argument bounds their number. -/
def blockLoop : Nat → Eight WordT → List UInt8 → Eight WordT × List UInt8
  | 0, h, buffer => (h, buffer)
  | bound + 1, h, buffer =>
      if 64 ≤ buffer.length then blockLoop bound (hash256Block h (buffer.take 64)) (buffer.drop 64) else (h, buffer)

def process (s : Hasher) (piece : List UInt8) : Hasher :=
  let buffer := s.buffer ++ piece
  let blocks := blockLoop buffer.length s.h buffer
  { buffer := blocks.2
    dataLengthDigits := addToDataLength s.dataLengthDigits (BitVec.ofNat 64 piece.length)
    h := blocks.1 }

/-- The first loop of `write_data_bit_length`: three shifts to the left. -/
def shiftLoop : List WordT → WordT → List WordT
  | [], _ => []
  | digit :: rest, carry => (((digit <<< 3) ||| carry) &&& 65535) :: shiftLoop rest ((digit >>> (16 - 3)) &&& 65535)

/-- `static_cast<byte_t>` -/
def byteOf (x : WordT) : UInt8 := UInt8.ofNat x.toNat

def writeDataBitLength (digits : List WordT) : List UInt8 :=
  (shiftLoop digits 0).reverse.flatMap fun (digit : WordT) => [byteOf (digit >>> 8), byteOf digit]

def finish (s : Hasher) : Hasher :=
  let temp := overwrite (List.replicate 64 0) 0 s.buffer
  let remains := if 64 ≤ s.buffer.length then 63 else s.buffer.length
  let temp := overwrite temp remains [0x80]
  if 55 < remains then
    let temp := overwrite temp (remains + 1) (List.replicate (64 - (remains + 1)) 0)
    let h := hash256Block s.h temp
    let temp := overwrite temp 0 (List.replicate (64 - 4) 0)
    { s with h := hash256Block h (overwrite temp 56 (writeDataBitLength s.dataLengthDigits)) }
  else
    let temp := overwrite temp (remains + 1) (List.replicate (64 - 4 - (remains + 1)) 0)
    { s with h := hash256Block s.h (overwrite temp 56 (writeDataBitLength s.dataLengthDigits)) }

def getHashBytes (s : Hasher) : List UInt8 :=
  s.h.toList.flatMap fun (word : WordT) => (List.range 4).map fun i => byteOf (word >>> (24 - 8 * i))

/-- A hasher that is given the pieces one after the other. -/
def hashPieces (pieces : List (List UInt8)) : List UInt8 := getHashBytes (finish (pieces.foldl process init))

/-- `hash256` of bytes in one place: one piece -/
def hash256 (bytes : List UInt8) : List UInt8 := hashPieces [bytes]

end TheSeed.PicoSha2
