import TheSeed.Library.Bytes

namespace TheSeed.Sha256

open Bytes

/-! SHA-256 over words of 32 bits: the padded message in blocks of 64 bytes, one compression after the other. -/

abbrev Word := BitVec 32

/-- Eight words: a digest, or the variables of a round. -/
structure Eight (α : Type) where
  a : α
  b : α
  c : α
  d : α
  e : α
  f : α
  g : α
  h : α
  deriving DecidableEq

namespace Eight

variable {α β : Type}

def map (φ : α → β) (s : Eight α) : Eight β := ⟨φ s.a, φ s.b, φ s.c, φ s.d, φ s.e, φ s.f, φ s.g, φ s.h⟩

def zipWith (φ : α → α → α) (s t : Eight α) : Eight α :=
  ⟨φ s.a t.a, φ s.b t.b, φ s.c t.c, φ s.d t.d, φ s.e t.e, φ s.f t.f, φ s.g t.g, φ s.h t.h⟩

def toList (s : Eight α) : List α := [s.a, s.b, s.c, s.d, s.e, s.f, s.g, s.h]

theorem toList_map (φ : α → β) (s : Eight α) : (s.map φ).toList = s.toList.map φ := rfl

end Eight

/-! The constants -/

def primes : List Nat :=
  [2, 3, 5, 7, 11, 13, 17, 19, 23, 29, 31, 37, 41, 43, 47, 53, 59, 61, 67, 71, 73, 79, 83, 89, 97, 101, 103, 107, 109, 113,
    127, 131, 137, 139, 149, 151, 157, 163, 167, 173, 179, 181, 191, 193, 197, 199, 211, 223, 227, 229, 233, 239, 241, 251,
    257, 263, 269, 271, 277, 281, 283, 293, 307, 311]

/-- The bits of the `k`-th root of a number, from the highest on. -/
def root (k n : Nat) : Nat → Nat → Nat
  | 0, r => r
  | bits + 1, r => root k n bits (if (r + 2 ^ bits) ^ k ≤ n then r + 2 ^ bits else r)

/-- The first 32 bits behind the point of the `k`-th root. -/
def fraction (k n : Nat) : Word := BitVec.ofNat 32 (root k (n * 2 ^ (32 * k)) 40 0)

/-- Of the cube roots of the first 64 primes. -/
def constants : List Word := primes.map (fraction 3)

/-- Of the square roots of the first eight primes. -/
def initial : Eight Word :=
  ⟨fraction 2 2, fraction 2 3, fraction 2 5, fraction 2 7, fraction 2 11, fraction 2 13, fraction 2 17, fraction 2 19⟩

/-! One block -/

def ch (x y z : Word) : Word := (x &&& y) ^^^ (~~~x &&& z)

def maj (x y z : Word) : Word := (x &&& y) ^^^ (x &&& z) ^^^ (y &&& z)

def bigSigma0 (x : Word) : Word := x.rotateRight 2 ^^^ x.rotateRight 13 ^^^ x.rotateRight 22

def bigSigma1 (x : Word) : Word := x.rotateRight 6 ^^^ x.rotateRight 11 ^^^ x.rotateRight 25

def smallSigma0 (x : Word) : Word := x.rotateRight 7 ^^^ x.rotateRight 18 ^^^ (x >>> 3)

def smallSigma1 (x : Word) : Word := x.rotateRight 17 ^^^ x.rotateRight 19 ^^^ (x >>> 10)

def blockWords (block : List UInt8) : List Word :=
  (List.range 16).map fun i => BitVec.ofNat 32 (beValue (slice block (4 * i) 4))

/-- The word that follows the others of a schedule. -/
def nextWord (w : List Word) : Word :=
  smallSigma1 (w.getD (w.length - 2) 0) + w.getD (w.length - 7) 0 + smallSigma0 (w.getD (w.length - 15) 0) +
    w.getD (w.length - 16) 0

def extend : Nat → List Word → List Word
  | 0, w => w
  | count + 1, w => extend count (w ++ [nextWord w])

def round (s : Eight Word) (key : Word × Word) : Eight Word :=
  let first := s.h + bigSigma1 s.e + ch s.e s.f s.g + key.1 + key.2
  let second := bigSigma0 s.a + maj s.a s.b s.c
  ⟨first + second, s.a, s.b, s.c, s.d + first, s.e, s.f, s.g⟩

def compress (digest : Eight Word) (block : List UInt8) : Eight Word :=
  digest.zipWith (· + ·) ((constants.zip (extend 48 (blockWords block))).foldl round digest)

/-! The message -/

/-- One block after the other, so many of them. -/
def absorb (digest : Eight Word) : Nat → List UInt8 → Eight Word
  | 0, _ => digest
  | blocks + 1, bytes => absorb (compress digest (bytes.take 64)) blocks (bytes.drop 64)

/-- A one bit, zeros up to a whole number of blocks, and the number of bits. -/
def pad (message : List UInt8) : List UInt8 :=
  message ++ (0x80 :: List.replicate ((119 - message.length % 64) % 64) 0) ++ beBytes 8 (8 * message.length)

def sha256 (message : List UInt8) : List UInt8 :=
  (absorb initial ((pad message).length / 64) (pad message)).toList.flatMap fun word => beBytes 4 word.toNat

variable {digest : Eight Word} {bytes rest : List UInt8} {m n : Nat}

/-- Only the blocks count. -/
theorem absorb_append (h : 64 * n ≤ bytes.length) : absorb digest n (bytes ++ rest) = absorb digest n bytes := by
  induction n generalizing digest bytes with
  | zero => rfl
  | succ n ih =>
      rw [absorb, absorb, List.take_append_of_le_length (by omega), List.drop_append_of_le_length (by omega)]
      apply ih
      rw [List.length_drop]
      omega

theorem absorb_add (digest : Eight Word) (m n : Nat) (bytes : List UInt8) :
    absorb digest (m + n) bytes = absorb (absorb digest m bytes) n (bytes.drop (64 * m)) := by
  induction m generalizing digest bytes with
  | zero => rw [Nat.zero_add, Nat.mul_zero, List.drop_zero, absorb]
  | succ m ih =>
      rw [Nat.add_right_comm, absorb, absorb, ih, List.drop_drop]
      congr 2
      omega

theorem length_pad (message : List UInt8) : (pad message).length = 64 * ((message.length + 8) / 64 + 1) := by
  rw [pad]
  simp only [List.length_append, List.length_cons, List.length_replicate, length_beBytes]
  omega

end TheSeed.Sha256
