import Verkos.Lib.Canonical

/-!
# The DEFLATE format

RFC 1951, as far as a decoder has to know it. A stream is a list of blocks of which only the last
says that it is the last. A block is stored, or it is a list of tokens in two canonical codes, which
are fixed or come in front of it. `Block.bits` is how a block is written and `Block.output` what it
means when there is output already: a match reaches back into that.

Decoders differ in what they let pass. What one of them asks of a stored block's check and of a
header is its `Dialect`, and `rfc1951` is that of the format itself; everything else is the same for
all of them.
-/

namespace Verkos.Lib.Rfc1951

open Lib.Bits Lib.Canonical

/-! ## Codes -/

/-- The bits of a symbol's word, which are the only ones that come highest first. -/
def codeBits (lens : List Nat) (s : Nat) : List Bool := bitsBE (len lens s) (word lens s)

/-- The symbol has a word, and the word is not beyond those of its length. -/
def Has (lens : List Nat) (s : Nat) : Prop := len lens s ≠ 0 ∧ word lens s < 2 ^ len lens s

instance (lens : List Nat) (s : Nat) : Decidable (Has lens s) := inferInstanceAs (Decidable (_ ∧ _))

/-- The lengths are those of a code: no length has more words than are left for it. -/
def IsCode (lens : List Nat) : Prop := ∀ l ≤ 15, first lens l + count lens l ≤ 2 ^ l

instance (lens : List Nat) : Decidable (IsCode lens) :=
  inferInstanceAs (Decidable (∀ l ≤ 15, _))

theorem length_codeBits_pos {lens : List Nat} {s : Nat} (h : Has lens s) :
    0 < (codeBits lens s).length := by
  rw [codeBits, length_bitsBE]
  exact Nat.pos_of_ne_zero h.1

/-- The lengths of the fixed literal code. -/
def fixedLit : List Nat :=
  List.replicate 144 8 ++ List.replicate 112 9 ++ List.replicate 24 7 ++ List.replicate 8 8

/-- The lengths of the fixed distance code, without the two symbols that are never used. -/
def fixedDist : List Nat := List.replicate 30 5

/-! ## Tokens -/

/-- How many bits follow a length symbol. -/
def lengthExtra (s : Nat) : Nat := if s < 265 ∨ s = 285 then 0 else (s - 261) / 4

/-- The least length of a length symbol. -/
def lengthBase (s : Nat) : Nat :=
  if s < 265 then s - 254
  else if s = 285 then 258
  else 3 + 2 ^ lengthExtra s * (4 + (s - 261) % 4)

/-- How many bits follow a distance symbol. -/
def distExtra (s : Nat) : Nat := if s < 4 then 0 else (s - 2) / 2

/-- The least distance of a distance symbol. -/
def distBase (s : Nat) : Nat := if s < 4 then s + 1 else 1 + 2 ^ distExtra s * (2 + s % 2)

/-- A byte, or a match by its two symbols and the numbers that follow them. -/
inductive Token
  | lit (b : UInt8)
  | copy (sym extra dsym dextra : Nat)
deriving DecidableEq

/-- The bits of a token. -/
def Token.bits (lit dist : List Nat) : Token → List Bool
  | .lit b => codeBits lit b.toNat
  | .copy sym extra dsym dextra =>
    codeBits lit sym ++ bitsLE (lengthExtra sym) extra ++
      (codeBits dist dsym ++ bitsLE (distExtra dsym) dextra)

/-- A match, byte by byte: what it puts out may be what it copies. -/
def copyMatch (dist : Nat) : Nat → List UInt8 → List UInt8
  | 0, out => out
  | n + 1, out => copyMatch dist n (out ++ [out.getD (out.length - dist) 0])

/-- What a token adds to the output. -/
def Token.output (out : List UInt8) : Token → List UInt8
  | .lit b => out ++ [b]
  | .copy sym extra dsym dextra => copyMatch (distBase dsym + dextra) (lengthBase sym + extra) out

/-- The token can be written in these codes, and does not reach back beyond the output. -/
def Token.Valid (lit dist : List Nat) (out : List UInt8) : Token → Prop
  | .lit b => Has lit b.toNat
  | .copy sym extra dsym dextra =>
    (Has lit sym ∧ 257 ≤ sym ∧ sym < 286 ∧ extra < 2 ^ lengthExtra sym) ∧
      (Has dist dsym ∧ dsym < 30 ∧ dextra < 2 ^ distExtra dsym) ∧
      distBase dsym + dextra ≤ out.length

instance (lit dist : List Nat) (out : List UInt8) (t : Token) : Decidable (t.Valid lit dist out) :=
  match t with
  | .lit _ => inferInstanceAs (Decidable (Has _ _))
  | .copy .. => inferInstanceAs (Decidable ((_ ∧ _ ∧ _ ∧ _) ∧ (_ ∧ _ ∧ _) ∧ _ ≤ _))

/-- The tokens are valid one after the other. -/
def TokensValid (lit dist : List Nat) : List UInt8 → List Token → Prop
  | _, [] => Has lit 256
  | out, t :: ts => t.Valid lit dist out ∧ TokensValid lit dist (t.output out) ts

instance TokensValid.decidable (lit dist : List Nat) :
    ∀ (out : List UInt8) (ts : List Token), Decidable (TokensValid lit dist out ts)
  | _, [] => inferInstanceAs (Decidable (Has _ _))
  | out, t :: ts =>
    have := TokensValid.decidable lit dist (t.output out) ts
    inferInstanceAs (Decidable (_ ∧ _))

/-- Tokens and the symbol that ends a block. -/
def tokenBits (lit dist : List Nat) (ts : List Token) : List Bool :=
  ts.flatMap (Token.bits lit dist) ++ codeBits lit 256

theorem tokenBits_cons (lit dist : List Nat) (t : Token) (ts : List Token) :
    tokenBits lit dist (t :: ts) = t.bits lit dist ++ tokenBits lit dist ts := by
  rw [tokenBits, tokenBits, List.flatMap_cons, List.append_assoc]

/-- A token takes a bit at least. -/
theorem length_lt_tokenBits {lit dist : List Nat} {out : List UInt8} {ts : List Token}
    (h : TokensValid lit dist out ts) : ts.length < (tokenBits lit dist ts).length := by
  induction ts generalizing out with
  | nil => exact length_codeBits_pos h
  | cons t ts ih =>
    have hts := ih h.2
    have ht : 0 < (t.bits lit dist).length := by
      cases t with
      | lit b => exact length_codeBits_pos h.1
      | copy sym extra dsym dextra =>
        rw [Token.bits, List.append_assoc, List.length_append]
        exact Nat.add_pos_left (length_codeBits_pos h.1.1.1) _
    rw [tokenBits_cons, List.length_append, List.length_cons]
    omega

/-! ## The header of a block with codes of its own -/

/-- The order in which the lengths of the code for lengths come. -/
def order : List Nat := [16, 17, 18, 0, 8, 7, 9, 6, 10, 5, 11, 4, 12, 3, 13, 2, 14, 1, 15]

/-- A symbol of the code for lengths and the number that follows it. -/
structure Item where
  sym : Nat
  extra : Nat
deriving DecidableEq

namespace Item

/-- How many bits follow the symbol. -/
def extraBits (sym : Nat) : Nat :=
  if sym < 16 then 0 else if sym = 16 then 2 else if sym = 17 then 3 else 7

/-- For how many codes the item stands: itself, the length before it again, or zeros. -/
def count (it : Item) : Nat :=
  if it.sym < 16 then 1 else if it.sym = 16 then 3 + it.extra
  else if it.sym = 17 then 3 + it.extra else 11 + it.extra

/-- The length it gives them. -/
def value (lens : List Nat) (it : Item) : Nat :=
  if it.sym < 16 then it.sym else if it.sym = 16 then lens.getLast?.getD 0 else 0

/-- The lengths with those of the item, up to `total` of them. -/
def expand (total : Nat) (lens : List Nat) (it : Item) : List Nat :=
  lens ++ List.replicate (min it.count (total - lens.length)) (it.value lens)

/-- The bits of an item. -/
def bits (cl : List Nat) (it : Item) : List Bool :=
  codeBits cl it.sym ++ bitsLE (extraBits it.sym) it.extra

/-- The item can be written, and what it repeats is there. -/
def Valid (cl lens : List Nat) (it : Item) : Prop :=
  Has cl it.sym ∧ it.extra < 2 ^ extraBits it.sym ∧ (it.sym = 16 → lens ≠ [])

instance (cl lens : List Nat) (it : Item) : Decidable (it.Valid cl lens) :=
  inferInstanceAs (Decidable (_ ∧ _ ∧ (_ → _)))

end Item

/-- The items give all of `total` lengths, and none is left over when they are there. -/
def ItemsValid (cl : List Nat) (total : Nat) : List Nat → List Item → Prop
  | lens, [] => total ≤ lens.length
  | lens, it :: its =>
    lens.length < total ∧ it.Valid cl lens ∧ ItemsValid cl total (it.expand total lens) its

instance ItemsValid.decidable (cl : List Nat) (total : Nat) :
    ∀ (lens : List Nat) (its : List Item), Decidable (ItemsValid cl total lens its)
  | _, [] => inferInstanceAs (Decidable (_ ≤ _))
  | lens, it :: its =>
    have := ItemsValid.decidable cl total (it.expand total lens) its
    inferInstanceAs (Decidable (_ ∧ _ ∧ _))

/-- The header: how many codes of either kind there are, the lengths of the code for lengths as
they come, and the items. -/
structure Header where
  hlit : Nat
  hdist : Nat
  cls : List Nat
  items : List Item
deriving DecidableEq

namespace Header

variable (h : Header)

def total : Nat := h.hlit + h.hdist

/-- The lengths of the code for lengths. -/
def cl : List Nat := (order.zip h.cls).foldl (fun cl p => cl.set p.1 p.2) (List.replicate 19 0)

/-- The lengths of both codes: a run may go from one into the other. -/
def lens : List Nat := h.items.foldl (Item.expand h.total) []

/-- The lengths of the literal code. -/
def lit : List Nat := h.lens.take h.hlit

/-- The lengths of the distance code. -/
def dist : List Nat := h.lens.drop h.hlit

/-- The bits of a header. -/
def bits : List Bool :=
  bitsLE 5 (h.hlit - 257) ++ (bitsLE 5 (h.hdist - 1) ++ (bitsLE 4 (h.cls.length - 4) ++
    (h.cls.flatMap (bitsLE 3) ++ h.items.flatMap (Item.bits h.cl))))

/-- The numbers fit their fields. -/
structure Fields : Prop where
  hlit : 257 ≤ h.hlit ∧ h.hlit ≤ 288
  hdist : 1 ≤ h.hdist ∧ h.hdist ≤ 32
  cls : 4 ≤ h.cls.length ∧ h.cls.length ≤ 19
  small : ∀ l ∈ h.cls, l < 8

instance : Decidable h.Fields :=
  decidable_of_iff ((257 ≤ h.hlit ∧ h.hlit ≤ 288) ∧ (1 ≤ h.hdist ∧ h.hdist ≤ 32) ∧
    (4 ≤ h.cls.length ∧ h.cls.length ≤ 19) ∧ ∀ l ∈ h.cls, l < 8)
    ⟨fun ⟨h₁, h₂, h₃, h₄⟩ => ⟨h₁, h₂, h₃, h₄⟩, fun ⟨h₁, h₂, h₃, h₄⟩ => ⟨h₁, h₂, h₃, h₄⟩⟩

end Header

/-! ## Blocks and streams -/

/-- A block. The bits in front of a stored one fill a byte. -/
inductive Block
  | stored (pad : List Bool) (nlen : Nat) (bytes : List UInt8)
  | fixed (tokens : List Token)
  | dynamic (header : Header) (tokens : List Token)

namespace Block

def type : Block → Nat
  | .stored .. => 0
  | .fixed _ => 1
  | .dynamic .. => 2

/-- What comes after the block's type. -/
def body : Block → List Bool
  | .stored pad nlen bytes =>
    pad ++ (bitsLE 16 bytes.length ++ (bitsLE 16 nlen ++ bytes.flatMap (bitsLE 8 ·.toNat)))
  | .fixed ts => tokenBits fixedLit fixedDist ts
  | .dynamic h ts => h.bits ++ tokenBits h.lit h.dist ts

/-- The bits of a block. -/
def bits (final : Bool) (b : Block) : List Bool := final :: (bitsLE 2 b.type ++ b.body)

/-- What a block adds to the output. -/
def output (out : List UInt8) : Block → List UInt8
  | .stored _ _ bytes => out ++ bytes
  | .fixed ts => ts.foldl Token.output out
  | .dynamic _ ts => ts.foldl Token.output out

end Block

/-- What a decoder asks of the numbers of a stored block and of a header. -/
structure Dialect where
  stored : (len nlen : Nat) → Prop
  header : Header → Prop

/-- What the format asks: the complement of the length, codes that are codes, and lengths that are
exactly as many as the header says. -/
def rfc1951 : Dialect where
  stored len nlen := nlen = 2 ^ 16 - 1 - len
  header h := h.hlit ≤ 286 ∧ (h.items.map Item.count).sum = h.total ∧
    IsCode h.cl ∧ IsCode h.lit ∧ IsCode h.dist

instance (len nlen : Nat) : Decidable (rfc1951.stored len nlen) :=
  inferInstanceAs (Decidable (_ = _))

instance (h : Header) : Decidable (rfc1951.header h) :=
  inferInstanceAs (Decidable (_ ∧ _ ∧ _ ∧ _ ∧ _))

/-- What one decoder asks the other asks too. -/
structure Dialect.Within (d d' : Dialect) : Prop where
  stored : ∀ len nlen, d.stored len nlen → d'.stored len nlen
  header : ∀ h : Header, h.Fields → d.header h → d'.header h

/-- The block is valid where `p` bits and the output `out` are in front of it. -/
def Block.Valid (d : Dialect) (p : Nat) (out : List UInt8) : Block → Prop
  | .stored pad nlen bytes =>
    (pad.length < 8 ∧ (p + 3 + pad.length) % 8 = 0) ∧ bytes.length < 2 ^ 16 ∧ nlen < 2 ^ 16 ∧
      d.stored bytes.length nlen
  | .fixed ts => TokensValid fixedLit fixedDist out ts
  | .dynamic h ts =>
    h.Fields ∧ ItemsValid h.cl h.total [] h.items ∧ d.header h ∧ TokensValid h.lit h.dist out ts

theorem Block.Valid.within {d d' : Dialect} (hd : d.Within d') {p : Nat} {out : List UInt8}
    {b : Block} (h : b.Valid d p out) : b.Valid d' p out := by
  cases b with
  | stored pad nlen bytes =>
    obtain ⟨hpad, hlen, hnlen, hst⟩ := h
    exact ⟨hpad, hlen, hnlen, hd.stored _ _ hst⟩
  | fixed ts => exact h
  | dynamic hdr ts =>
    obtain ⟨hf, hits, hhd, hts⟩ := h
    exact ⟨hf, hits, hd.header hdr hf hhd, hts⟩

/-- Blocks of which none is the last. -/
def blockBits (bs : List Block) : List Bool := bs.flatMap (Block.bits false)

def BlocksValid (d : Dialect) : Nat → List UInt8 → List Block → Prop
  | _, _, [] => True
  | p, out, b :: bs =>
    b.Valid d p out ∧ BlocksValid d (p + (b.bits false).length) (b.output out) bs

theorem BlocksValid.within {d d' : Dialect} (hd : d.Within d') {p : Nat} {out : List UInt8}
    {bs : List Block} (h : BlocksValid d p out bs) : BlocksValid d' p out bs := by
  induction bs generalizing p out with
  | nil => trivial
  | cons b bs ih => exact ⟨h.1.within hd, ih h.2⟩

/-- A stream: blocks, and the last one. -/
structure Stream where
  init : List Block
  last : Block

namespace Stream

variable (s : Stream)

def bits : List Bool := blockBits s.init ++ s.last.bits true

def output : List UInt8 := s.last.output (s.init.foldl Block.output [])

/-- Every block is valid where it stands. -/
def Valid (d : Dialect) : Prop :=
  BlocksValid d 0 [] s.init ∧
    s.last.Valid d (blockBits s.init).length (s.init.foldl Block.output [])

variable {s}

theorem Valid.within {d d' : Dialect} (hd : d.Within d') (h : s.Valid d) : s.Valid d' :=
  ⟨h.1.within hd, h.2.within hd⟩

end Stream

section Decidable

variable (d : Dialect) [∀ len nlen, Decidable (d.stored len nlen)] [∀ h, Decidable (d.header h)]

instance (p : Nat) (out : List UInt8) (b : Block) : Decidable (b.Valid d p out) :=
  match b with
  | .stored .. => inferInstanceAs (Decidable (_ ∧ _ ∧ _ ∧ _))
  | .fixed _ => inferInstanceAs (Decidable (TokensValid _ _ _ _))
  | .dynamic .. => inferInstanceAs (Decidable (_ ∧ _ ∧ _ ∧ _))

instance BlocksValid.decidable :
    ∀ (p : Nat) (out : List UInt8) (bs : List Block), Decidable (BlocksValid d p out bs)
  | _, _, [] => inferInstanceAs (Decidable True)
  | p, out, b :: bs =>
    have := BlocksValid.decidable (p + (b.bits false).length) (b.output out) bs
    inferInstanceAs (Decidable (_ ∧ _))

instance (s : Stream) : Decidable (s.Valid d) := inferInstanceAs (Decidable (_ ∧ _))

end Decidable

end Verkos.Lib.Rfc1951
