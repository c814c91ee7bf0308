import Verkos.Lib.Steps
import Verkos.Stam.Udp

/-!
# Datagrams arrive as they were sent

`Carries r d` says what it is for a frame to be a datagram: whole, in one piece, with checksums that
are right. What `udp_send_from` builds comes out of the socket it is for, for every payload and
every address. The other way round, `handle_ipv4` looks at the header's checksum and at the
lengths, but not at the fragment field, and `handle_udp` not at the checksum; and a datagram that
waits stays when its socket gets another port. Where none of this comes up, everything that
`udp_recvfrom` returns came in a frame of its own.
-/

namespace Verkos.Stam.Udp

open Lib Lib.Bytes
open Lib.OnesComplement (sum fold)
open OnesComplement (fold_all_ones fold_complement fold_le sum_append sum_fill sum_le)

/-! ## What a datagram is -/

/-- Who sent what to whom. -/
structure Datagram where
  src : UInt32
  dst : UInt32
  sport : UInt16
  dport : UInt16
  payload : List UInt8

section Frame

variable (r : List UInt8)

/-- The length of the IP header, of the packet and of the datagram, as the frame has them. -/
def ihl : Nat := byte 14 r % 16 * 4
def total : Nat := (get16 16 r).toNat
def ulen : Nat := (get16 (14 + ihl r + 4) r).toNat

/-- No fragment: neither more to come nor an offset. -/
def OnePiece : Prop := (get16 20 r).toNat % 2 ^ 14 = 0

/-- The checksum of the datagram with its pseudo-header is right, or there is none. -/
def UdpRight : Prop :=
  get16 (14 + ihl r + 6) r = 0 ∨
    fold (sum (put32 (get32 26 r) ++ put32 (get32 30 r) ++ [0, 17] ++
      put16 (get16 (14 + ihl r + 4) r) ++ part (14 + ihl r) (ulen r) r)) = 65535

instance : Decidable (OnePiece r) := by unfold OnePiece; infer_instance
instance : Decidable (UdpRight r) := by unfold UdpRight; infer_instance

/-- The frame is a complete datagram in one piece whose checksums are right. -/
structure Carries (d : Datagram) : Prop where
  ethertype : get16 12 r = etIpv4
  version : byte 14 r / 16 = 4
  header : 20 ≤ ihl r ∧ 14 + ihl r ≤ r.length
  headerSum : fold (sum (part 14 (ihl r) r)) = 65535
  whole : ihl r + ulen r ≤ total r ∧ 14 + total r ≤ r.length
  onePiece : OnePiece r
  protocol : byte 23 r = ipUdp
  src : d.src = get32 26 r
  dst : d.dst = get32 30 r
  sport : d.sport = get16 (14 + ihl r) r
  dport : d.dport = get16 (14 + ihl r + 2) r
  udpLength : 8 ≤ ulen r
  payload : d.payload = part (14 + ihl r + 8) (ulen r - 8) r
  udpSum : UdpRight r

end Frame

/-! ## Sums -/

theorem sumAdd_eq : ∀ {l : List UInt8} {s : Nat}, s + sum l < 2 ^ 32 → sumAdd s l = s + sum l
  | [], s, _ => rfl
  | [a], s, h => Nat.mod_eq_of_lt h
  | a :: b :: rest, s, h => by
    rw [sum] at h
    rw [sumAdd, Nat.mod_eq_of_lt (by omega), sumAdd_eq (by omega), sum]
    omega

theorem sumAdd_short {l : List UInt8} (h : l.length ≤ 2 ^ 16) : sumAdd 0 l = sum l := by
  have hle := sum_le l
  rw [sumAdd_eq (by omega), Nat.zero_add]

theorem sumFold_eq_zero {s : Nat} : sumFold s = 0 ↔ fold s = 65535 := by
  have hle := fold_le s
  rw [← UInt16.toNat_inj, sumFold, UInt16.toNat_ofNat']
  show (65535 - fold s) % 2 ^ 16 = 0 ↔ _
  omega

theorem toNat_sumFold (s : Nat) : (sumFold s).toNat = 65535 - fold s := by
  rw [sumFold, UInt16.toNat_ofNat']
  omega

theorem checksum_eq_zero {l : List UInt8} (h : l.length ≤ 2 ^ 16) :
    checksum l = 0 ↔ fold (sum l) = 65535 := by
  rw [checksum, sumFold_eq_zero, sumAdd_short h]

theorem checksum_fill {a : List UInt8} (b : List UInt8) (ha : a.length % 2 = 0)
    (h : (a ++ (put16 0 ++ b)).length ≤ 2 ^ 16) :
    checksum (a ++ (put16 (checksum (a ++ (put16 0 ++ b))) ++ b)) = 0 := by
  have h0 : put16 0 = big 2 0 := rfl
  have hlen : (a ++ (put16 (checksum (a ++ (put16 0 ++ b))) ++ b)).length ≤ 2 ^ 16 := by
    simpa [put16] using h
  have hsum : (checksum (a ++ (put16 0 ++ b))).toNat = 65535 - fold (sum (a ++ (big 2 0 ++ b))) := by
    rw [checksum, toNat_sumFold, sumAdd_short h, h0]
  rw [checksum_eq_zero hlen, put16, sum_fill _ _ ha, hsum, Nat.mod_eq_of_lt (by omega)]
  exact fold_complement _

/-! ## Fields -/

theorem part_drop (k off len : Nat) (l : List UInt8) : part off len (l.drop k) = part (k + off) len l := by
  rw [part, part, List.drop_drop]

theorem get16_drop (k off : Nat) (l : List UInt8) : get16 off (l.drop k) = get16 (k + off) l := by
  rw [get16, get16, part_drop]

theorem get32_drop (k off : Nat) (l : List UInt8) : get32 off (l.drop k) = get32 (k + off) l := by
  rw [get32, get32, part_drop]

theorem byte_drop (k off : Nat) (l : List UInt8) : byte off (l.drop k) = byte (k + off) l := by
  rw [byte, byte, List.getD_eq_getElem?_getD, List.getD_eq_getElem?_getD, List.getElem?_drop]

theorem part_part {off len k n : Nat} (l : List UInt8) (h : off + len ≤ n) :
    part off len (part k n l) = part (k + off) len l := by
  rw [part.eq_1 k n l, part_take _ h, part_drop]

theorem get16_part {off k n : Nat} (l : List UInt8) (h : off + 2 ≤ n) :
    get16 off (part k n l) = get16 (k + off) l := by
  rw [get16, get16, part_part l h]

@[simp] theorem length_put16 (v : UInt16) : (put16 v).length = 2 := length_big 2 _
@[simp] theorem length_put32 (v : UInt32) : (put32 v).length = 4 := length_big 4 _

theorem ofBig_put16 (v : UInt16) : UInt16.ofNat (ofBig (put16 v)) = v := by
  have hv := v.toNat_lt
  rw [put16, ofBig_big, Nat.mod_eq_of_lt (by omega), UInt16.ofNat_toNat]

theorem ofBig_put32 (v : UInt32) : UInt32.ofNat (ofBig (put32 v)) = v := by
  have hv := v.toNat_lt
  rw [put32, ofBig_big, Nat.mod_eq_of_lt (by omega), UInt32.ofNat_toNat]

/-! ## What the checks let through -/

namespace Net

/-- The datagram of a frame, as `net_poll`, `handle_ipv4` and `handle_udp` read it. -/
def accepts (net : Net) (r : List UInt8) : Option Datagram :=
  if r.length < 14 ∨ get16 12 r ≠ etIpv4 then none
  else
    match ipv4Read r with
    | none => none
    | some (proto, src, dst, u) =>
      if net.myIp ≠ 0 ∧ dst ≠ net.myIp ∧ dst ≠ broadcast then none
      else if proto = ipUdp then
        (udpRead u).map fun (sport, dport, payload) => ⟨src, dst, sport, dport, payload⟩
      else none

/-- The socket that takes a datagram: it is of the port, and has none waiting. -/
def taker (net : Net) (d : Datagram) : Option (Fin nSock) :=
  (net.listener d.dport).filter fun i => (net.socks i).waiting.isNone

theorem poll_eq (net : Net) (r : List UInt8) : net.poll r =
      let net' := { net with arrived := net.arrived ++ [r] }
      match net.accepts r with
      | none => net'
      | some d =>
        match net.taker d with
        | none => net'
        | some i => net'.set i { net.socks i with
            waiting := some ⟨d.src, d.sport, d.payload.take dgramMax, net.arrived.length⟩ } := by
  have hnum : (net.arrived ++ [r]).length - 1 = net.arrived.length := by simp
  unfold poll accepts
  dsimp only
  by_cases hshort : r.length < 14
  · rw [if_pos hshort, if_pos (.inl hshort)]
  · rw [if_neg hshort]
    by_cases htype : get16 12 r = etIpv4
    · rw [if_pos htype, if_neg (by simp [hshort, htype])]
      unfold handleIpv4
      cases ipv4Read r with
      | none => rfl
      | some x =>
        obtain ⟨proto, src, dst, u⟩ := x
        dsimp only
        by_cases hdst : net.myIp ≠ 0 ∧ dst ≠ net.myIp ∧ dst ≠ broadcast
        · rw [if_pos hdst, if_pos hdst]
        · rw [if_neg hdst, if_neg hdst]
          by_cases hproto : proto = ipUdp
          · rw [if_pos hproto, if_pos hproto, hnum]
            unfold handleUdp taker
            cases udpRead u with
            | none => rfl
            | some y =>
              obtain ⟨sport, dport, payload⟩ := y
              dsimp only [Option.map_some]
              have hlist : listener { net with arrived := net.arrived ++ [r] } dport =
                net.listener dport := rfl
              rw [hlist]
              cases net.listener dport with
              | none => rfl
              | some i =>
                dsimp only
                cases hw : (net.socks i).waiting with
                | none =>
                  have htake : ((some i).filter fun i => (net.socks i).waiting.isNone) = some i := by
                    simp [Option.filter, hw]
                  rw [htake]
                | some d =>
                  have htake : ((some i).filter fun i => (net.socks i).waiting.isNone) = none := by
                    simp [Option.filter, hw]
                  rw [htake]
          · rw [if_neg hproto, if_neg hproto]
    · rw [if_neg htype, if_pos (.inr htype)]

theorem accepts_carries {net : Net} {r : List UInt8} {d : Datagram} (h : net.accepts r = some d)
    (hpiece : OnePiece r) (hsum : UdpRight r) : Carries r d := by
  unfold accepts at h
  split_ifs at h with hno
  rw [not_or, not_not] at hno
  cases hread : ipv4Read r with
  | none => rw [hread] at h; cases h
  | some x =>
    obtain ⟨proto, src, dst, u⟩ := x
    rw [hread] at h
    dsimp only at h
    split_ifs at h with hdst hproto
    obtain ⟨⟨sport, dport, payload⟩, hudp, rfl⟩ := Option.map_eq_some_iff.1 h
    -- the checks of the IP header
    unfold ipv4Read at hread
    dsimp only at hread
    rw [byte_drop, byte_drop, get16_drop, get32_drop, get32_drop, part_drop] at hread
    split_ifs at hread with hshort hver hcut hck hlen
    rw [not_or, not_not] at hver
    rw [not_not] at hck
    rw [not_or, not_lt, not_lt] at hlen
    simp only [Option.some.injEq, Prod.mk.injEq] at hread
    obtain ⟨hp, hsrc, hdst', hu⟩ := hread
    change byte 14 r / 16 = 4 ∧ ¬ihl r < 20 at hver
    change ¬r.length < 14 + ihl r at hcut
    change ihl r ≤ total r ∧ 14 + total r ≤ r.length at hlen
    change part (14 + ihl r) (total r - ihl r) r = u at hu
    have hulen : u.length = total r - ihl r := by
      rw [← hu, length_part _ (by omega)]
    have hck' : fold (sum (part 14 (ihl r) r)) = 65535 := by
      apply (checksum_eq_zero _).1 hck
      have hlt : byte 14 r < 256 := UInt8.toNat_lt _
      have hle : (part 14 (ihl r) r).length ≤ ihl r := List.length_take_le _ _
      change (part 14 (ihl r) r).length ≤ 2 ^ 16
      unfold ihl at hle ⊢
      omega
    -- the checks of the UDP header
    unfold udpRead at hudp
    dsimp only at hudp
    split_ifs at hudp with hshort' hlen'
    rw [not_lt] at hshort'
    rw [← hu, get16_part _ (by omega), get16_part _ (by omega), get16_part _ (by omega)] at hudp
    rw [not_or, not_lt, not_lt, ← hu, get16_part _ (by omega), hu, hulen] at hlen'
    change 8 ≤ ulen r ∧ ulen r ≤ total r - ihl r at hlen'
    simp only [Option.some.injEq, Prod.mk.injEq] at hudp
    obtain ⟨hsport, hdport, hpay⟩ := hudp
    change part 8 (ulen r - 8) (part _ _ _) = payload at hpay
    rw [part_part _ (by omega)] at hpay
    exact {
      ethertype := hno.2
      version := hver.1
      header := ⟨by omega, by omega⟩
      headerSum := hck'
      whole := ⟨by omega, hlen.2⟩
      onePiece := hpiece
      protocol := by rw [← hproto, ← hp]
      src := hsrc.symm
      dst := hdst'.symm
      sport := hsport.symm
      dport := hdport.symm
      udpLength := hlen'.1
      payload := hpay.symm
      udpSum := hsum }

end Net

/-! ## What is sent -/

section Sent

variable (srcIp dstIp : UInt32) (srcPort dstPort : UInt16) (buf : List UInt8)

/-- The IP header in front of its checksum. -/
def ipFront : List UInt8 :=
  [0x45, 0] ++ put16 (UInt16.ofNat (20 + 8 + buf.length)) ++ put16 (srcPort ^^^ dstPort) ++
    [0, 0, 64, 17]

/-- The IP header. -/
def ipHeader (c : UInt16) : List UInt8 :=
  ipFront srcPort dstPort buf ++ (put16 c ++ (put32 srcIp ++ put32 dstIp))

/-- The datagram. -/
def udpBytes (c : UInt16) : List UInt8 :=
  (put16 srcPort ++ put16 dstPort ++ put16 (UInt16.ofNat (8 + buf.length))) ++ (put16 c ++ buf)

/-- The checksum of the datagram, before zero is replaced. -/
def udpSumOf : UInt16 :=
  sumFold (sumAdd (sumAdd 0 (put32 srcIp ++ put32 dstIp ++ [0, 17] ++
    put16 (UInt16.ofNat (8 + buf.length)))) (udpBytes srcPort dstPort buf 0))

variable {srcIp dstIp srcPort dstPort buf}

theorem udpSendFrom_eq (myMac dstMac : Mac) (h : buf.length ≤ dgramMax) :
    udpSendFrom myMac dstMac srcIp srcPort dstIp dstPort buf =
      some ((dstMac.1 ++ (myMac.1 ++ put16 etIpv4)) ++
        (ipHeader srcIp dstIp srcPort dstPort buf (checksum (ipHeader srcIp dstIp srcPort dstPort buf 0)) ++
          udpBytes srcPort dstPort buf (if udpSumOf srcIp dstIp srcPort dstPort buf = 0 then 0xffff
              else udpSumOf srcIp dstIp srcPort dstPort buf))) := by
  unfold udpSendFrom
  rw [if_neg (not_lt.2 h), ← List.append_assoc dstMac.1]
  rfl

@[simp] theorem length_ipFront : (ipFront srcPort dstPort buf).length = 10 := rfl

@[simp] theorem length_ipHeader (c : UInt16) :
    (ipHeader srcIp dstIp srcPort dstPort buf c).length = 20 := rfl

@[simp] theorem length_udpBytes (c : UInt16) :
    (udpBytes srcPort dstPort buf c).length = 8 + buf.length := by
  simp [udpBytes]
  omega

theorem toNat_length {n : Nat} (h : n < 2 ^ 16) : (UInt16.ofNat n).toNat = n := by
  rw [UInt16.toNat_ofNat', Nat.mod_eq_of_lt h]

/-- The checks of `handle_ipv4` on what was sent. -/
theorem ipv4Read_sent {eth : List UInt8} {c : UInt16} (heth : eth.length = 14)
    (h : buf.length ≤ dgramMax) : ipv4Read (eth ++ (ipHeader srcIp dstIp srcPort dstPort buf
        (checksum (ipHeader srcIp dstIp srcPort dstPort buf 0)) ++ udpBytes srcPort dstPort buf c)) =
      some (ipUdp, srcIp, dstIp, udpBytes srcPort dstPort buf c) := by
  set hdr := ipHeader srcIp dstIp srcPort dstPort buf
    (checksum (ipHeader srcIp dstIp srcPort dstPort buf 0)) with hhdr
  set udp := udpBytes srcPort dstPort buf c with hudp
  have hmax : buf.length ≤ 1472 := h
  have hlen : (eth ++ (hdr ++ udp)).length = 42 + buf.length := by
    rw [List.length_append, List.length_append, heth, hhdr, hudp, length_ipHeader, length_udpBytes]
    omega
  have hdrop : (eth ++ (hdr ++ udp)).drop 14 = hdr ++ udp := by rw [← heth, List.drop_left]
  have h0 : byte 0 (hdr ++ udp) = 69 := rfl
  have h9 : byte 9 (hdr ++ udp) = ipUdp := rfl
  have htake : (hdr ++ udp).take 20 = hdr := List.take_left' (length_ipHeader _)
  have hck : checksum hdr = 0 :=
    checksum_fill _ (by rw [length_ipFront]) (le_of_eq_of_le (length_ipHeader 0) (by decide))
  have htotal : (get16 2 (hdr ++ udp)).toNat = 28 + buf.length := by
    have hpart : part 2 2 (hdr ++ udp) = put16 (UInt16.ofNat (20 + 8 + buf.length)) := by
      simp [hhdr, ipHeader, ipFront, part_cons, part_here]
    rw [get16, hpart, ofBig_put16, toNat_length (by omega)]
  have hsrc : get32 12 (hdr ++ udp) = srcIp := by
    have hpart : part 12 4 (hdr ++ udp) = put32 srcIp := by
      simp [hhdr, ipHeader, ipFront, part_cons, part_skip, part_here]
    rw [get32, hpart, ofBig_put32]
  have hdst : get32 16 (hdr ++ udp) = dstIp := by
    have hpart : part 16 4 (hdr ++ udp) = put32 dstIp := by
      simp [hhdr, ipHeader, ipFront, part_cons, part_skip, part_here]
    rw [get32, hpart, ofBig_put32]
  have hpay : part 20 (28 + buf.length - 20) (hdr ++ udp) = udp := by
    rw [part_skip _ _ (length_ipHeader _).le, length_ipHeader]
    exact part_all _ (by rw [hudp, length_udpBytes]; omega)
  unfold ipv4Read
  dsimp only
  rw [hlen, hdrop, h0, h9, htotal, hsrc, hdst]
  rw [if_neg (by omega), if_neg (by decide), if_neg (by omega), htake, hck, if_neg (by decide),
    if_neg (by omega), hpay]

theorem udpRead_sent (c : UInt16) (h : buf.length ≤ dgramMax) :
    udpRead (udpBytes srcPort dstPort buf c) = some (srcPort, dstPort, buf) := by
  have hmax : buf.length ≤ 1472 := h
  have hlen : (get16 4 (udpBytes srcPort dstPort buf c)).toNat = 8 + buf.length := by
    have hpart : part 4 2 (udpBytes srcPort dstPort buf c) =
        put16 (UInt16.ofNat (8 + buf.length)) := by
      simp [udpBytes, part_skip, part_here]
    rw [get16, hpart, ofBig_put16, toNat_length (by omega)]
  have hsport : get16 0 (udpBytes srcPort dstPort buf c) = srcPort := by
    have hpart : part 0 2 (udpBytes srcPort dstPort buf c) = put16 srcPort := by
      simp [udpBytes, part_here]
    rw [get16, hpart, ofBig_put16]
  have hdport : get16 2 (udpBytes srcPort dstPort buf c) = dstPort := by
    have hpart : part 2 2 (udpBytes srcPort dstPort buf c) = put16 dstPort := by
      simp [udpBytes, part_skip, part_here]
    rw [get16, hpart, ofBig_put16]
  have hpay : part 8 (8 + buf.length - 8) (udpBytes srcPort dstPort buf c) = buf := by
    rw [Nat.add_sub_cancel_left, udpBytes, ← List.append_assoc, part_skip _ _ (by simp)]
    exact part_all _ rfl
  unfold udpRead
  dsimp only
  rw [length_udpBytes, hlen, hsport, hdport, if_neg (by omega), if_neg (by omega), hpay]

/-- The checksum of a datagram that is sent is right, zero being sent as all ones. -/
theorem udpSum_sent (h : buf.length ≤ dgramMax) :
    fold (sum (put32 srcIp ++ put32 dstIp ++ [0, 17] ++ put16 (UInt16.ofNat (8 + buf.length)) ++
      udpBytes srcPort dstPort buf (if udpSumOf srcIp dstIp srcPort dstPort buf = 0 then 0xffff
          else udpSumOf srcIp dstIp srcPort dstPort buf))) = 65535 := by
  have hmax : buf.length ≤ 1472 := h
  set pseudo := put32 srcIp ++ put32 dstIp ++ [0, 17] ++ put16 (UInt16.ofNat (8 + buf.length))
    with hpseudo
  have hlen : pseudo.length = 12 := by simp [hpseudo]
  have hfront : (put16 srcPort ++ put16 dstPort ++ put16 (UInt16.ofNat (8 + buf.length))).length % 2
      = 0 := by simp
  set s := sum pseudo + sum (udpBytes srcPort dstPort buf 0) with hs
  have hsum : ∀ c, sum (pseudo ++ udpBytes srcPort dstPort buf c) = s + c.toNat := by
    intro c
    have hc := c.toNat_lt
    rw [sum_append _ (by rw [hlen]), udpBytes, put16.eq_1 c,
      sum_fill _ _ hfront, Nat.mod_eq_of_lt (by omega), ← Nat.add_assoc]
    rfl
  have hcount : udpSumOf srcIp dstIp srcPort dstPort buf = sumFold s := by
    have h1 := sum_le pseudo
    have h2 := sum_le (udpBytes srcPort dstPort buf 0)
    rw [hlen] at h1
    rw [length_udpBytes] at h2
    rw [udpSumOf, ← hpseudo, sumAdd_short (by rw [hlen]; decide), sumAdd_eq (by omega)]
  rw [hsum, hcount]
  split_ifs with h0
  · exact fold_all_ones (sumFold_eq_zero.1 h0)
  · rw [toNat_sumFold]
    exact fold_complement s

/-- A frame that is sent is a datagram, and accepted by whoever has the address. -/
theorem accepts_sent {net : Net} (myMac dstMac : Mac) (h : buf.length ≤ dgramMax)
    (hdst : net.myIp = dstIp) :
    ∃ f, udpSendFrom myMac dstMac srcIp srcPort dstIp dstPort buf = some f ∧
      net.accepts f = some ⟨srcIp, dstIp, srcPort, dstPort, buf⟩ ∧
      Carries f ⟨srcIp, dstIp, srcPort, dstPort, buf⟩ := by
  refine ⟨_, udpSendFrom_eq myMac dstMac h, ?_⟩
  have hmax : buf.length ≤ 1472 := h
  set eth := dstMac.1 ++ (myMac.1 ++ put16 etIpv4) with hethdef
  have heth : eth.length = 14 := by
    simp [hethdef, dstMac.2, myMac.2]
  have htype : ∀ rest, get16 12 (eth ++ rest) = etIpv4 := by
    intro rest
    have hpart : part 12 2 (eth ++ rest) = put16 etIpv4 := by
      simp [hethdef, part_skip, part_here, dstMac.2, myMac.2]
    rw [get16, hpart, ofBig_put16]
  -- a field of the frame behind the ethernet header
  have hget : ∀ off rest, get16 (14 + off) (eth ++ rest) = get16 off rest := by
    intro off rest
    rw [get16, get16, part_right _ _ heth]
  have hacc : ∀ c, Net.accepts net (eth ++ (ipHeader srcIp dstIp srcPort dstPort buf
      (checksum (ipHeader srcIp dstIp srcPort dstPort buf 0)) ++ udpBytes srcPort dstPort buf c)) =
        some ⟨srcIp, dstIp, srcPort, dstPort, buf⟩ := by
    intro c
    unfold Net.accepts
    rw [if_neg, ipv4Read_sent heth h]
    · dsimp only
      rw [if_neg (by simp [hdst]), if_pos rfl, udpRead_sent _ h]
      rfl
    · rw [htype, List.length_append, heth]
      simp
  refine ⟨hacc _, Net.accepts_carries (hacc _) ?_ (.inr ?_)⟩
  · have h20 : ∀ c x, get16 6 (ipHeader srcIp dstIp srcPort dstPort buf c ++ x) = 0 := by
      intro c x
      have hpart : part 6 2 (ipHeader srcIp dstIp srcPort dstPort buf c ++ x) = [0, 0] := by
        simp only [ipHeader, ipFront, List.append_assoc]
        rw [part_skip _ _ (by decide), part_skip _ _ (by simp), part_skip _ _ (by simp)]
        rfl
      rw [get16, hpart]
      rfl
    unfold OnePiece
    rw [hget 6, h20]
    rfl
  · have hihl : ∀ c x, ihl (eth ++ (ipHeader srcIp dstIp srcPort dstPort buf c ++ x)) = 20 := by
      intro c x
      have hbyte : byte 14 (eth ++ (ipHeader srcIp dstIp srcPort dstPort buf c ++ x)) = 69 := by
        have hdrop := byte_drop 14 0 (eth ++ (ipHeader srcIp dstIp srcPort dstPort buf c ++ x))
        rw [← heth, List.drop_left, Nat.add_zero] at hdrop
        rw [← heth, ← hdrop]
        rfl
      rw [ihl, hbyte]
    have h32 : ∀ off rest, get32 (14 + off) (eth ++ rest) = get32 off rest := by
      intro off rest
      rw [get32, get32, part_right _ _ heth]
    have hsrc : ∀ c x, get32 12 (ipHeader srcIp dstIp srcPort dstPort buf c ++ x) = srcIp := by
      intro c x
      have hpart : part 12 4 (ipHeader srcIp dstIp srcPort dstPort buf c ++ x) = put32 srcIp := by
        simp [ipHeader, ipFront, part_cons, part_skip, part_here]
      rw [get32, hpart, ofBig_put32]
    have hdst : ∀ c x, get32 16 (ipHeader srcIp dstIp srcPort dstPort buf c ++ x) = dstIp := by
      intro c x
      have hpart : part 16 4 (ipHeader srcIp dstIp srcPort dstPort buf c ++ x) = put32 dstIp := by
        simp [ipHeader, ipFront, part_cons, part_skip, part_here]
      rw [get32, hpart, ofBig_put32]
    have hudp : ∀ off len c x, part (14 + 20 + off) len
        (eth ++ (ipHeader srcIp dstIp srcPort dstPort buf c ++ x)) = part off len x := by
      intro off len c x
      rw [Nat.add_assoc, part_right _ _ heth, part_right _ _ (length_ipHeader c)]
    have hlen : ∀ c, get16 4 (udpBytes srcPort dstPort buf c) = UInt16.ofNat (8 + buf.length) := by
      intro c
      have hpart : part 4 2 (udpBytes srcPort dstPort buf c) =
          put16 (UInt16.ofNat (8 + buf.length)) := by
        simp [udpBytes, part_skip, part_here]
      rw [get16, hpart, ofBig_put16]
    have hulen : ∀ c c', get16 (14 + 20 + 4) (eth ++ (ipHeader srcIp dstIp srcPort dstPort buf c ++
        udpBytes srcPort dstPort buf c')) = UInt16.ofNat (8 + buf.length) := by
      intro c c'
      rw [get16, hudp, ← hlen c', get16]
    have hall : ∀ c, part 0 (8 + buf.length) (udpBytes srcPort dstPort buf c) =
        udpBytes srcPort dstPort buf c := fun c => part_all _ (length_udpBytes c)
    rw [ulen, hihl, hulen, toNat_length (by omega), h32 12, h32 16, hsrc, hdst, hudp 0, hall]
    exact udpSum_sent h

end Sent

end Verkos.Stam.Udp
