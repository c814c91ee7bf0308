import Mathlib.Data.Nat.NthRoot.Defs
import Mathlib.Data.Nat.Prime.Defs
import Verkos.Lib.Bits
import Verkos.Lib.Pieces

/-!
# SHA-256

The Secure Hash Standard, FIPS 180-4, for SHA-256. A message is a list of bits. The constants are
the ones the standard describes: the first bits of the fractional parts of roots of primes.
-/

namespace Verkos.Lib.Sha256

open Bits Pieces

abbrev Word := BitVec 32

/-- Eight words: a hash value, or the working variables of a round. -/
structure Eight (W : Type) where
  a : W
  b : W
  c : W
  d : W
  e : W
  f : W
  g : W
  h : W
  deriving DecidableEq

namespace Eight

variable {W V : Type}

def toList (x : Eight W) : List W := [x.a, x.b, x.c, x.d, x.e, x.f, x.g, x.h]

def map (f : W → V) (x : Eight W) : Eight V :=
  ⟨f x.a, f x.b, f x.c, f x.d, f x.e, f x.f, f x.g, f x.h⟩

def zipWith (op : W → W → W) (x y : Eight W) : Eight W :=
  ⟨op x.a y.a, op x.b y.b, op x.c y.c, op x.d y.d, op x.e y.e, op x.f y.f, op x.g y.g, op x.h y.h⟩

@[simp] theorem toList_map (f : W → V) (x : Eight W) : (x.map f).toList = x.toList.map f := rfl

end Eight

/-! ## Functions and constants -/

def ch (x y z : Word) : Word := (x &&& y) ^^^ (~~~x &&& z)

def maj (x y z : Word) : Word := (x &&& y) ^^^ (x &&& z) ^^^ (y &&& z)

def bigSigma0 (x : Word) : Word := x.rotateRight 2 ^^^ x.rotateRight 13 ^^^ x.rotateRight 22

def bigSigma1 (x : Word) : Word := x.rotateRight 6 ^^^ x.rotateRight 11 ^^^ x.rotateRight 25

def smallSigma0 (x : Word) : Word := x.rotateRight 7 ^^^ x.rotateRight 18 ^^^ x >>> 3

def smallSigma1 (x : Word) : Word := x.rotateRight 17 ^^^ x.rotateRight 19 ^^^ x >>> 10

/-- The first 64 primes. -/
def primes : List Nat := (List.range 312).filter Nat.Prime

/-- A number below `18 ^ 2` is prime when no number below 18 divides it. -/
theorem primes_eq : primes =
    (List.range 312).filter fun p => 2 ≤ p ∧ ∀ m < 18, 2 ≤ m → m < p → ¬m ∣ p := by
  refine List.filter_congr fun p hp => decide_eq_decide.2 ⟨fun h => ?_, fun ⟨h2, h⟩ => ?_⟩
  · refine ⟨h.two_le, fun m _ hm hlt hdvd => ?_⟩
    rcases h.eq_one_or_self_of_dvd m hdvd with rfl | rfl <;> omega
  · have hs : p.sqrt < 18 := Nat.sqrt_lt.2 (by have := List.mem_range.1 hp; omega)
    exact Nat.prime_def_le_sqrt.2 ⟨h2, fun m hm hle => h m (hle.trans_lt hs) hm
      (hle.trans_lt (Nat.sqrt_lt_self h2))⟩

/-- The first 32 bits of the fractional part of the `k`-th root of `p`. -/
def rootBits (k p : Nat) : Word := BitVec.ofNat 32 (Nat.nthRoot k (p * 2 ^ (32 * k)))

/-- `K_t`: from the cube roots. -/
def constants : List Word := primes.map (rootBits 3)

/-- The initial hash value: from the square roots of the first eight primes. -/
def start : Eight Word :=
  ⟨rootBits 2 2, rootBits 2 3, rootBits 2 5, rootBits 2 7, rootBits 2 11, rootBits 2 13,
    rootBits 2 17, rootBits 2 19⟩

/-! ## Padding and parsing -/

/-- The zero bits between the closing one and the length. -/
def zeros (l : Nat) : Nat := (959 - l % 512) % 512

def pad (m : List Bool) : List Bool :=
  m ++ [true] ++ List.replicate (zeros m.length) false ++ bitsBE 64 m.length

/-- A word from its bits, highest first. -/
def word (bits : List Bool) : Word := BitVec.ofNat 32 (ofBE bits)

/-- The sixteen words of a block. -/
def words (block : List Bool) : List Word := (pieces 32 block).map word

/-! ## The hash computation -/

/-- The message schedule `W_t`. -/
def schedule (m : List Word) (t : Nat) : Word :=
  if t < 16 then m.getD t 0
  else smallSigma1 (schedule m (t - 2)) + schedule m (t - 7) + smallSigma0 (schedule m (t - 15)) +
    schedule m (t - 16)
termination_by t

/-- A round on the working variables. -/
def round (m : List Word) (v : Eight Word) (t : Nat) : Eight Word :=
  let t1 := v.h + bigSigma1 v.e + ch v.e v.f v.g + constants.getD t 0 + schedule m t
  let t2 := bigSigma0 v.a + maj v.a v.b v.c
  ⟨t1 + t2, v.a, v.b, v.c, v.d + t1, v.e, v.f, v.g⟩

/-- The hash value after one more block. -/
def compress (hash : Eight Word) (m : List Word) : Eight Word :=
  hash.zipWith (· + ·) ((List.range 64).foldl (round m) hash)

def hash (m : List Bool) : Eight Word :=
  (pieces 512 (pad m)).foldl (fun h b => compress h (words b)) start

/-- The message digest, in bits. -/
def digest (m : List Bool) : List Bool := (hash m).toList.flatMap fun w => bitsBE 32 w.toNat

/-! ## Messages of bytes -/

def byteBits (l : List UInt8) : List Bool := l.flatMap fun b => bitsBE 8 b.toNat

/-- Bits in lower-case hexadecimal, four to a digit. -/
def hex (bits : List Bool) : List Char := (pieces 4 bits).map fun p => (ofBE p).digitChar

theorem length_byteBits (l : List UInt8) : (byteBits l).length = 8 * l.length :=
  length_flatMap_of (fun _ => length_bitsBE 8 _) l

theorem byteBits_append (a b : List UInt8) : byteBits (a ++ b) = byteBits a ++ byteBits b :=
  List.flatMap_append

theorem pieces_byteBits (n : Nat) (l : List UInt8) :
    pieces (8 * n) (byteBits l) = (pieces n l).map byteBits :=
  pieces_flatMap (fun _ => length_bitsBE 8 _) (by decide) n l

end Verkos.Lib.Sha256
