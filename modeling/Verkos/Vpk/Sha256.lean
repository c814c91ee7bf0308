import Verkos.Lib.Bytes
import Verkos.Lib.Digits
import Verkos.Lib.Sha256

/-!
# The digest of a package file

`vpk` computes SHA-256 itself. Input comes through `sha256_update` in portions; what does not fill a
block waits in `buf`, which is never full between two calls.
-/

namespace Verkos.Vpk

open Lib Lib.Pieces Lib.Bits
open Lib.Sha256 (Eight)

/-- `sha256_t`. `n` is the length of what is in `buf`. -/
structure Sha256 where
  h : Eight UInt32
  len : UInt64
  buf : List UInt8
  n_lt : buf.length < 64

def ror (x : UInt32) (c : Nat) : UInt32 := (x >>> UInt32.ofNat c) ||| (x <<< UInt32.ofNat (32 - c))

def K256 : List UInt32 := [
  0x428a2f98, 0x71374491, 0xb5c0fbcf, 0xe9b5dba5, 0x3956c25b, 0x59f111f1, 0x923f82a4, 0xab1c5ed5,
  0xd807aa98, 0x12835b01, 0x243185be, 0x550c7dc3, 0x72be5d74, 0x80deb1fe, 0x9bdc06a7, 0xc19bf174,
  0xe49b69c1, 0xefbe4786, 0x0fc19dc6, 0x240ca1cc, 0x2de92c6f, 0x4a7484aa, 0x5cb0a9dc, 0x76f988da,
  0x983e5152, 0xa831c66d, 0xb00327c8, 0xbf597fc7, 0xc6e00bf3, 0xd5a79147, 0x06ca6351, 0x14292967,
  0x27b70a85, 0x2e1b2138, 0x4d2c6dfc, 0x53380d13, 0x650a7354, 0x766a0abb, 0x81c2c92e, 0x92722c85,
  0xa2bfe8a1, 0xa81a664b, 0xc24b8b70, 0xc76c51a3, 0xd192e819, 0xd6990624, 0xf40e3585, 0x106aa070,
  0x19a4c116, 0x1e376c08, 0x2748774c, 0x34b0bcb5, 0x391c0cb3, 0x4ed8aa4a, 0x5b9cca4f, 0x682e6ff3,
  0x748f82ee, 0x78a5636f, 0x84c87814, 0x8cc70208, 0x90befffa, 0xa4506ceb, 0xbef9a3f7, 0xc67178f2]

def sha256_init : Sha256 where
  h := ⟨0x6a09e667, 0xbb67ae85, 0x3c6ef372, 0xa54ff53a, 0x510e527f, 0x9b05688c, 0x1f83d9ab,
    0x5be0cd19⟩
  len := 0
  buf := []
  n_lt := by decide

/-! ## One block -/

/-- `w[i]` for `i < 16`. -/
def wordAt (p : List UInt8) (i : Nat) : UInt32 :=
  (p.getD (i * 4) 0).toUInt32 <<< 24 ||| (p.getD (i * 4 + 1) 0).toUInt32 <<< 16 |||
    (p.getD (i * 4 + 2) 0).toUInt32 <<< 8 ||| (p.getD (i * 4 + 3) 0).toUInt32

/-- `w[i]` from the ones before it, for `16 ≤ i`. -/
def wordNext (w : List UInt32) (i : Nat) : UInt32 :=
  let s0 := ror (w.getD (i - 15) 0) 7 ^^^ ror (w.getD (i - 15) 0) 18 ^^^ (w.getD (i - 15) 0 >>> 3)
  let s1 := ror (w.getD (i - 2) 0) 17 ^^^ ror (w.getD (i - 2) 0) 19 ^^^ (w.getD (i - 2) 0 >>> 10)
  w.getD (i - 16) 0 + s0 + w.getD (i - 7) 0 + s1

/-- The array `w` once `n` of its words are set by the second loop. -/
def wordsUpTo (p : List UInt8) (n : Nat) : List UInt32 :=
  (List.range' 16 n).foldl (fun w i => w ++ [wordNext w i]) ((List.range 16).map (wordAt p))

/-- One turn of the third loop, on `a` to `h`. -/
def turn (w : List UInt32) (v : Eight UInt32) (i : Nat) : Eight UInt32 :=
  let S1 := ror v.e 6 ^^^ ror v.e 11 ^^^ ror v.e 25
  let ch := (v.e &&& v.f) ^^^ (~~~v.e &&& v.g)
  let t1 := v.h + S1 + ch + K256.getD i 0 + w.getD i 0
  let S0 := ror v.a 2 ^^^ ror v.a 13 ^^^ ror v.a 22
  let maj := (v.a &&& v.b) ^^^ (v.a &&& v.c) ^^^ (v.b &&& v.c)
  let t2 := S0 + maj
  ⟨t1 + t2, v.a, v.b, v.c, v.d + t1, v.e, v.f, v.g⟩

def sha256_block (h : Eight UInt32) (p : List UInt8) : Eight UInt32 :=
  h.zipWith (· + ·) ((List.range 64).foldl (turn (wordsUpTo p 48)) h)

/-! ## Portions -/

theorem block_pos : ([] : List UInt8).length < 64 := by decide

theorem Sha256.filled_lt (s : Sha256) (b : UInt8) (p : List UInt8)
    (hn : ¬(s.buf ++ (b :: p).take (min (64 - s.buf.length) (b :: p).length)).length = 64) :
    (s.buf ++ (b :: p).take (min (64 - s.buf.length) (b :: p).length)).length < 64 := by
  have := s.n_lt
  rw [List.length_append, List.length_take] at hn ⊢
  omega

/-- The loop of `sha256_update`. -/
def absorb (s : Sha256) (p : List UInt8) : Sha256 :=
  match p with
  | [] => s
  | b :: p' =>
    let k := min (64 - s.buf.length) (b :: p').length
    let buf := s.buf ++ (b :: p').take k
    if hn : buf.length = 64 then
      absorb { s with h := sha256_block s.h buf, buf := [], n_lt := block_pos } ((b :: p').drop k)
    else
      absorb { s with
        buf := buf
        n_lt := s.filled_lt b p' hn } ((b :: p').drop k)
termination_by p.length
decreasing_by
  all_goals
    have := s.n_lt
    simp only [List.length_drop, List.length_cons]
    omega

def sha256_update (s : Sha256) (data : List UInt8) : Sha256 :=
  absorb { s with len := s.len + UInt64.ofNat data.length } data

theorem length_absorb (s : Sha256) (p : List UInt8) :
    (absorb s p).buf.length = (s.buf.length + p.length) % 64 := by
  fun_induction absorb s p with
  | case1 s => exact (Nat.mod_eq_of_lt s.n_lt).symm
  | case2 s b p k buf hn ih =>
    have hlt := s.n_lt
    have hbuf : s.buf.length + min k (p.length + 1) = 64 := by
      rw [← hn, List.length_append, List.length_take, List.length_cons]
    rw [ih, List.length_drop, List.length_nil, List.length_cons]
    omega
  | case3 s b p k buf hn ih =>
    have hlt := s.n_lt
    have hbuf : buf.length = s.buf.length + min k (p.length + 1) := by
      rw [List.length_append, List.length_take, List.length_cons]
    rw [ih, List.length_drop, List.length_cons, hbuf]
    have hk : k = min (64 - s.buf.length) (p.length + 1) := rfl
    omega

theorem length_sha256_update (s : Sha256) (data : List UInt8) :
    (sha256_update s data).buf.length = (s.buf.length + data.length) % 64 :=
  length_absorb _ data

/-! ## The end of the input -/

/-- `while (s->n != 56) sha256_update(s, &z, 1)`. -/
def zeroFill (s : Sha256) : Sha256 :=
  if s.buf.length ≠ 56 then zeroFill (sha256_update s [0]) else s
termination_by (120 - s.buf.length) % 64
decreasing_by
  have hlt := s.n_lt
  rw [length_sha256_update, List.length_singleton]
  omega

/-- `%08x`. -/
def hex8 (v : UInt32) : List Char := (Nat.toDigits 16 v.toNat).leftpad 8 '0'

/-- `sha256_final`: the text in `out`. -/
def sha256_final (s : Sha256) : List Char :=
  let bits := s.len * 8
  let s := sha256_update s [0x80]
  let s := zeroFill s
  let L := (List.range 8).map fun i => (bits >>> UInt64.ofNat (56 - i * 8)).toUInt8
  let s := sha256_update s L
  s.h.toList.flatMap hex8

end Verkos.Vpk
