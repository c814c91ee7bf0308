import Mathlib.Data.List.TakeWhile
import Mathlib.Data.Vector.Defs
import Verkos.Lib.Bytes

/-!
# Messages that vdhcp sends

`build` fills a `struct dhcp_msg` of 548 bytes, its options through a cursor that nothing checks
against the end. Here every store is checked: one past the structure is `none`. What a
configuration holds comes from `load_conf` and the command line, and every array in it is filled
with a bound of its own.

The options that fit are read back one after the other, up to the end marker. They fit if and only
if their lengths add up to 312 bytes at most; a long host name beside a long FQDN do not.
-/

namespace Verkos.Vdhcp.Build

open List hiding Vector
open Lib.Bytes

/-! ## The configuration -/

def ascii (s : String) : List UInt8 := s.toList.map fun c => UInt8.ofNat c.toNat

/-- A string in an array of `n + 1` bytes. -/
structure Text (n : Nat) where
  bytes : List UInt8
  nonzero : 0 ∉ bytes
  length_le : bytes.length ≤ n

/-- `snprintf` with `"%s"`. -/
def Text.print (n : Nat) (s : List UInt8) : Text n where
  bytes := (s.takeWhile (· ≠ 0)).take n
  nonzero h := by simpa using mem_takeWhile_imp (mem_of_mem_take h)
  length_le := length_take_le ..

/-- `struct conf`, as far as `build` reads it. -/
structure Conf where
  hostname : Text 127
  reqLease : UInt32
  vendor : Text 63
  fqdn : Text 127
  extraReq : List UInt8
  extraReq_le : extraReq.length ≤ 32
  rapid : Bool

def isspace (b : UInt8) : Bool := b = 32 ∨ (9 ≤ b ∧ b ≤ 13)

def trim (s : List UInt8) : List UInt8 :=
  ((s.dropWhile isspace).reverse.dropWhile isspace).reverse

/-- `strtoul` to the base ten. -/
def strtoul (s : List UInt8) : Nat :=
  let s := s.dropWhile isspace
  let (minus, s) :=
    match s with
    | 45 :: cs => (true, cs)
    | 43 :: cs => (false, cs)
    | cs => (false, cs)
  let n := (s.takeWhile fun b => 48 ≤ b ∧ b ≤ 57).foldl (fun n b => n * 10 + (b.toNat - 48)) 0
  if 2 ^ 64 ≤ n then 2 ^ 64 - 1 else if minus then (2 ^ 64 - n) % 2 ^ 64 else n

/-- `strtok` with blanks, commas and tabs, over and over. -/
def tokens (s : List UInt8) : List (List UInt8) :=
  (s.splitOnP (· ∈ [32, 44, 9])).filter (· ≠ [])

/-- `fgets` with a buffer of 512, over and over. -/
def fgetsLines (cur : List UInt8) : List UInt8 → List (List UInt8)
  | [] => if cur = [] then [] else [cur]
  | b :: rest =>
    if b = 10 ∨ cur.length + 1 = 511 then (cur ++ [b]) :: fgetsLines [] rest
    else fgetsLines (cur ++ [b]) rest

/-- One line of `load_conf`; the keys that `build` has no use for change nothing here. -/
def loadLine (c : Conf) (line : List UInt8) : Conf :=
  let s := line.takeWhile fun b => b ≠ 0 ∧ b ≠ 35
  let k := trim (s.takeWhile (· ≠ 61))
  let v := trim ((s.dropWhile (· ≠ 61)).drop 1)
  if 61 ∉ s ∨ k = [] ∨ v = [] then c
  else if k = ascii "hostname" then { c with hostname := .print _ v }
  else if k = ascii "vendor" then { c with vendor := .print _ v }
  else if k = ascii "fqdn" then { c with fqdn := .print _ v }
  else if k = ascii "lease" then { c with reqLease := .ofNat (strtoul v) }
  else if k = ascii "rapid" then { c with rapid := v = ascii "yes" ∨ v = ascii "1" }
  else if k = ascii "request" then
    { c with
      extraReq := (c.extraReq ++ (tokens v).map fun t => UInt8.ofNat (strtoul t)).take 32
      extraReq_le := length_take_le .. }
  else c

/-- What `main` leaves in `g_conf`: the file, `-h`, `-r`, and the name the kernel has for a host
that was given none. -/
def configure (file host : List UInt8) (rapid : Bool) (node : List UInt8) : Conf :=
  let c := (fgetsLines [] file).foldl loadLine
    ⟨.print _ [], 0, .print _ [], .print _ [], [], by simp, false⟩
  let c := if (Text.print 127 host).bytes ≠ [] then { c with hostname := .print _ host } else c
  let c := if rapid then { c with rapid := true } else c
  if c.hostname.bytes = [] then
    { c with hostname := if (Text.print 127 node).bytes = ascii "(none)" then .print _ []
                         else .print _ node }
  else c

/-! ## Writing a message -/

/-- A message that is being written, and how far. -/
structure Cursor where
  m : List UInt8
  p : Nat

/-- Bytes at the cursor, none of them past the end. -/
def Cursor.put (b : Cursor) (v : List UInt8) : Option Cursor :=
  if b.p + v.length ≤ b.m.length then
    some ⟨b.m.take b.p ++ v ++ b.m.drop (b.p + v.length), b.p + v.length⟩
  else none

/-- `opt`. -/
def Cursor.opt (b : Cursor) (code len : UInt8) (val : List UInt8) : Option Cursor := do
  let b ← b.put [code]
  let b ← b.put [len]
  if len ≠ 0 then b.put (val.take len.toNat) else b

/-- The arguments of `build`; addresses are in network byte order. -/
structure Args where
  type : Int
  xid : UInt32
  ciaddr : UInt32
  reqIp : UInt32
  serverId : UInt32
  bcast : Bool

def dhcpDiscover : Int := 1
def dhcpRequest : Int := 3
def dhcpInform : Int := 8

def le32 (v : UInt32) : List UInt8 := little 4 v.toNat

/-- `htonl(DHCP_MAGIC)`. -/
def magic : List UInt8 := [0x63, 0x82, 0x53, 0x63]

/-- What is in front of the options. -/
def header (mac : Vector UInt8 6) (a : Args) : List UInt8 :=
  [1, 1, 6, 0] ++ le32 a.xid ++ [0, 0] ++ (if a.bcast then [0x80, 0] else [0, 0]) ++
    le32 a.ciaddr ++ replicate 12 0 ++ mac.toList ++ replicate 10 0 ++ replicate 64 0 ++
    replicate 128 0

/-- `base` and the codes that the configuration adds. -/
def prl (c : Conf) : List UInt8 := [1, 3, 6, 15, 26, 28, 42, 51, 58, 59, 119, 121] ++ c.extraReq

/-- `opt`, under a condition. -/
def Cursor.optIf (b : Cursor) (p : Prop) [Decidable p] (code len : UInt8) (val : List UInt8) :
    Option Cursor := if p then b.opt code len val else some b

/-- The middle of `build`: the options between the cookie and the end marker. -/
def Cursor.options (c : Conf) (mac : Vector UInt8 6) (a : Args) (b : Cursor) : Option Cursor := do
  let b ← b.opt 53 1 [.ofInt a.type]
  let b ← b.opt 61 7 (1 :: mac.toList)
  let b ← b.optIf (a.reqIp ≠ 0) 50 4 (le32 a.reqIp)
  let b ← b.optIf (a.serverId ≠ 0) 54 4 (le32 a.serverId)
  let b ← b.optIf (a.type = dhcpDiscover ∧ c.rapid) 80 0 []
  if a.type = dhcpDiscover ∨ a.type = dhcpRequest ∨ a.type = dhcpInform then do
    let b ← b.optIf (c.hostname.bytes ≠ []) 12 (.ofNat c.hostname.bytes.length) c.hostname.bytes
    let b ← b.optIf (c.vendor.bytes ≠ []) 60 (.ofNat c.vendor.bytes.length) c.vendor.bytes
    let b ← b.optIf (c.fqdn.bytes ≠ []) 81 (.ofNat (c.fqdn.bytes.length + 3))
      (0 :: 0 :: 0 :: c.fqdn.bytes)
    let b ← b.optIf (c.reqLease ≠ 0 ∧ a.type ≠ dhcpInform) 51 4 (big 4 c.reqLease.toNat)
    b.opt 55 (.ofNat (prl c).length) (prl c)
  else b

/-- `build`; the message, and its length under the cursor. -/
def build (c : Conf) (mac : Vector UInt8 6) (a : Args) : Option Cursor := do
  let b ← Cursor.put ⟨header mac a ++ replicate 312 0, 236⟩ magic
  let b ← b.options c mac a
  b.put [255]

/-! ## Reading it back -/

/-- An option: its code, and its data. -/
abbrev Opt := UInt8 × List UInt8

/-- The options of RFC 2132 up to the end marker: 0 is padding, and any other code has a length and
as many bytes of data behind it. -/
def walk (l : List UInt8) : Option (List Opt) :=
  match l with
  | [] => none
  | 255 :: _ => some []
  | 0 :: l => walk l
  | _ :: [] => none
  | code :: len :: l =>
    if len.toNat ≤ l.length then (walk (l.drop len.toNat)).map ((code, l.take len.toNat) :: ·)
    else none
termination_by l.length
decreasing_by
  all_goals
    simp only [length_cons, length_drop]
    omega

/-- The options of a message. -/
def readBack (m : List UInt8) : Option (List Opt) :=
  if (m.drop 236).take 4 = magic then walk (m.drop 240) else none

/-- The options that `build` means to send. -/
def meant (c : Conf) (mac : Vector UInt8 6) (a : Args) : List Opt :=
  [(53, [.ofInt a.type])] ++ ([(61, 1 :: mac.toList)] ++
    ((if a.reqIp ≠ 0 then [(50, le32 a.reqIp)] else []) ++
    ((if a.serverId ≠ 0 then [(54, le32 a.serverId)] else []) ++
    ((if a.type = dhcpDiscover ∧ c.rapid then [(80, [])] else []) ++
    (if a.type = dhcpDiscover ∨ a.type = dhcpRequest ∨ a.type = dhcpInform then
      (if c.hostname.bytes ≠ [] then [(12, c.hostname.bytes)] else []) ++
      ((if c.vendor.bytes ≠ [] then [(60, c.vendor.bytes)] else []) ++
      ((if c.fqdn.bytes ≠ [] then [(81, 0 :: 0 :: 0 :: c.fqdn.bytes)] else []) ++
      ((if c.reqLease ≠ 0 ∧ a.type ≠ dhcpInform then [(51, big 4 c.reqLease.toNat)] else []) ++
      [(55, prl c)])))
    else [])))))

/-- The bytes that they take, the cookie and the end marker included. -/
def size (c : Conf) (a : Args) : Nat :=
  17 + (if a.reqIp ≠ 0 then 6 else 0) + (if a.serverId ≠ 0 then 6 else 0) +
    (if a.type = dhcpDiscover ∧ c.rapid then 2 else 0) +
    (if a.type = dhcpDiscover ∨ a.type = dhcpRequest ∨ a.type = dhcpInform then
      (if c.hostname.bytes ≠ [] then c.hostname.bytes.length + 2 else 0) +
      (if c.vendor.bytes ≠ [] then c.vendor.bytes.length + 2 else 0) +
      (if c.fqdn.bytes ≠ [] then c.fqdn.bytes.length + 5 else 0) +
      (if c.reqLease ≠ 0 ∧ a.type ≠ dhcpInform then 6 else 0) + (c.extraReq.length + 14)
    else 0)

/-- No store left the message, and the options read back are the ones meant. -/
def Sound (c : Conf) (mac : Vector UInt8 6) (a : Args) : Prop :=
  ∃ b, build c mac a = some b ∧ readBack b.m = some (meant c mac a)

def encode (os : List Opt) : List UInt8 := os.flatMap fun o => o.1 :: .ofNat o.2.length :: o.2

/-- A message of which `w` is written, if it fits. -/
def area (w : List UInt8) : Option Cursor :=
  if w.length ≤ 548 then some ⟨w ++ replicate (548 - w.length) 0, w.length⟩ else none

theorem area_put (w v : List UInt8) : (area w >>= (·.put v)) = area (w ++ v) := by
  unfold area
  by_cases hw : w.length ≤ 548
  · have hlen : w.length + v.length ≤ 548 ↔
        w.length + v.length ≤ w.length + (548 - w.length) := by omega
    simp [hw, Cursor.put, drop_append, hlen, Nat.sub_add_eq,
      show w.drop (w.length + v.length) = [] from drop_eq_nil_of_le (by omega)]
  · simp [hw, show ¬ w.length + v.length ≤ 548 by omega]

/-- What is an option for the walk. -/
def Proper (o : Opt) : Prop := o.1 ≠ 0 ∧ o.1 ≠ 255 ∧ o.2.length < 256

/-- `f` appends these options. -/
def Sends (f : Cursor → Option Cursor) (os : List Opt) : Prop :=
  (∀ o ∈ os, Proper o) ∧ ∀ w, (area w >>= f) = area (w ++ encode os)

namespace Sends

variable {f g : Cursor → Option Cursor} {os ps : List Opt}

theorem opt {code len : UInt8} {v : List UInt8} (hc : code ≠ 0 ∧ code ≠ 255)
    (hv : v.length < 256) (hl : len = .ofNat v.length) : Sends (·.opt code len v) [(code, v)] := by
  refine ⟨by simpa using ⟨hc.1, hc.2, hv⟩, fun w => ?_⟩
  have hn : len.toNat = v.length := by simp [hl, Nat.mod_eq_of_lt hv]
  have hrest : ∀ w, (area w >>= fun b => if len ≠ 0 then b.put (v.take len.toNat) else some b) =
      area (w ++ v) := by
    intro w
    by_cases h0 : len = 0
    · have : v = [] := by simpa [h0] using hn.symm
      simp [h0, this]
    · simpa [h0, hn] using area_put w v
  calc (area w >>= (·.opt code len v))
      = (((area w >>= (·.put [code])) >>= (·.put [len])) >>=
          fun b => if len ≠ 0 then b.put (v.take len.toNat) else some b) := by
        simp only [Cursor.opt, bind_assoc]
    _ = area (w ++ encode [(code, v)]) := by
        rw [area_put, area_put, hrest]
        simp [encode, hl]

theorem bind (hf : Sends f os) (hg : Sends g ps) : Sends (fun b => f b >>= g) (os ++ ps) := by
  refine ⟨forall_mem_append.mpr ⟨hf.1, hg.1⟩, fun w => ?_⟩
  rw [← bind_assoc, hf.2, hg.2, append_assoc, encode, encode, encode, flatMap_append]

theorem ite {p : Prop} [Decidable p] (hf : Sends f os) :
    Sends (fun b => if p then f b else some b) (if p then os else []) := by
  by_cases h : p
  · simpa [h] using hf
  · exact ⟨by simp [h], fun w => by simp [h, encode]⟩

theorem optIf {p : Prop} [Decidable p] {code len : UInt8} {v : List UInt8}
    (hc : code ≠ 0 ∧ code ≠ 255) (hv : v.length < 256) (hl : len = .ofNat v.length) :
    Sends (·.optIf p code len v) (if p then [(code, v)] else []) := ite (opt hc hv hl)

end Sends

/-! ## What is written -/

theorem length_header (mac : Vector UInt8 6) (a : Args) : (header mac a).length = 236 := by
  simp only [header, le32, length_append, length_replicate, length_little, Vector.length_toList,
    apply_ite length]
  simp

theorem length_prl_lt (c : Conf) : (prl c).length < 256 := by
  have := c.extraReq_le
  simp [prl]
  omega

theorem sends_options (c : Conf) (mac : Vector UInt8 6) (a : Args) :
    Sends (·.options c mac a) (meant c mac a) := by
  have hh := c.hostname.length_le
  have hv := c.vendor.length_le
  have hf := c.fqdn.length_le
  unfold Cursor.options meant
  refine .bind (.opt (by decide) (by simp) rfl) ?_
  refine .bind (.opt (by decide) (by simp) (by simp)) ?_
  refine .bind (.optIf (by decide) (by simp [le32]) (by simp [le32])) ?_
  refine .bind (.optIf (by decide) (by simp [le32]) (by simp [le32])) ?_
  refine .bind (.optIf (by decide) (by simp) rfl) (.ite ?_)
  refine .bind (.optIf (by decide) (by omega) rfl) ?_
  refine .bind (.optIf (by decide) (by omega) rfl) ?_
  refine .bind (.optIf (by decide) (by simp; omega) rfl) ?_
  exact .bind (.optIf (by decide) (by simp) (by simp)) (.opt (by decide) (length_prl_lt c) rfl)

theorem build_eq (c : Conf) (mac : Vector UInt8 6) (a : Args) :
    build c mac a = area (header mac a ++ magic ++ encode (meant c mac a) ++ [255]) := by
  have h0 : area (header mac a) = some ⟨header mac a ++ replicate 312 0, 236⟩ := by
    rw [area, length_header, if_pos (by decide)]
  have h := area_put (header mac a) magic
  rw [h0] at h
  rw [← area_put, ← (sends_options c mac a).2, ← h]
  simp only [build, Option.bind_eq_bind, Option.bind_some, Option.bind_assoc]

theorem length_encode_meant (c : Conf) (mac : Vector UInt8 6) (a : Args) :
    (encode (meant c mac a)).length + 5 = size c a := by
  simp only [encode, meant, size, flatMap_append, length_append, apply_ite (flatMap _),
    apply_ite length, flatMap_cons, flatMap_nil, length_cons, length_nil]
  by_cases ht : a.type = dhcpDiscover ∨ a.type = dhcpRequest ∨ a.type = dhcpInform
  all_goals
    simp [ht, le32, prl, Nat.add_assoc]
    omega

theorem walk_encode {os : List Opt} (h : ∀ o ∈ os, Proper o) (rest : List UInt8) :
    walk (encode os ++ 255 :: rest) = some os := by
  induction os with
  | nil => simp [encode, walk]
  | cons o os ih =>
    obtain ⟨h0, h255, hlt⟩ := h o (by simp)
    have hn : (UInt8.ofNat o.2.length).toNat = o.2.length := by simp [Nat.mod_eq_of_lt hlt]
    have hcons : encode (o :: os) ++ 255 :: rest =
        o.1 :: .ofNat o.2.length :: (o.2 ++ (encode os ++ 255 :: rest)) := by simp [encode]
    rw [hcons, walk]
    · simp [hn, ih fun p hp => h p (mem_cons_of_mem _ hp)]
    · simpa using h255
    · simpa using h0

/-- A message is written and read back as it was meant if and only if its options fit. -/
theorem build_sound_iff (c : Conf) (mac : Vector UInt8 6) (a : Args) :
    Sound c mac a ↔ size c a ≤ 312 := by
  have hlen := length_encode_meant c mac a
  rw [Sound, build_eq, area]
  simp only [length_append, length_header, magic, length_cons, length_nil]
  split <;> rename_i hw
  · refine ⟨fun _ => by omega, fun _ => ⟨_, rfl, ?_⟩⟩
    have hdrop : ∀ k l, (header mac a ++ l).drop (236 + k) = l.drop k := fun k l => by
      rw [← length_header mac a, drop_length_add_append]
    rw [readBack]
    simp only [append_assoc]
    rw [hdrop 0, hdrop 4]
    simpa [magic] using walk_encode (sends_options c mac a).1 _
  · exact ⟨fun ⟨_, h, _⟩ => by simp at h, fun h => by omega⟩

/-- A host name and an FQDN of 127 bytes, a vendor class of six and a lease time, in the REQUEST
that answers an OFFER. -/
theorem not_build_sound : ¬ ∀ file host rapid node mac a,
    Sound (configure file host rapid node) mac a := by
  intro h
  obtain ⟨b, hb, _⟩ := h
    (ascii "fqdn=" ++ replicate 127 97 ++ ascii "\nvendor=verkos\nlease=60\n") (replicate 127 97) false [] (.replicate 6 0) ⟨3, 1, 0, 2, 1, true⟩
  generalize hc : configure _ _ _ _ = c at hb
  have hlen := length_encode_meant c (.replicate 6 0) ⟨3, 1, 0, 2, 1, true⟩
  have hsize : size c ⟨3, 1, 0, 2, 1, true⟩ = 318 := by rw [← hc]; decide +kernel
  rw [build_eq, area, if_neg] at hb
  · cases hb
  · simp only [length_append, length_header, magic, length_cons, length_nil]
    omega

end Verkos.Vdhcp.Build
