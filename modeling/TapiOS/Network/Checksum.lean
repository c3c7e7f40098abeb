import TapiOS.Lib.OnesComplement
import TapiOS.Network.Packet

/-!
# Checksums of outgoing packets, network/tcp.c and network/ipv4.c

Both checksums add 16-bit words as the machine reads them, add the two halves of the sum
once and store the complement. A receiver adds the same bytes as big-endian words with
end-around carries. The order of the bytes does not matter for that; a carry out of the
addition of the two halves does.
-/
namespace TapiOS.Network

open Lib Util
open BitVec (ofNat eq_of_toNat_eq ofNat_add toNat toNat_ofNat)

/-- The memory of 16-bit words. -/
def bytesOf (ws : List Half) : List Byte :=
  ws.flatMap (fun w => [w.extractLsb' 0 8, w.extractLsb' 8 8])

def Ipv4Header.bytes (h : Ipv4Header) : List Byte := bytesOf h.words

/-- Addresses, a zero byte, the protocol and the length of header and payload. -/
def TcpPacket.pseudoHeader (p : TcpPacket) : List Byte :=
  bytesOf [low p.ipv4.srcIp, high p.ipv4.srcIp, low p.ipv4.destIp, high p.ipv4.destIp] ++
    [0, p.ipv4.protocol, ofNat 8 ((20 + p.data.length) / 256),
      ofNat 8 (20 + p.data.length)]

def TcpPacket.segment (p : TcpPacket) : List Byte := bytesOf p.tcp.words ++ p.data

/-- The one's complement sum of RFC 1071. -/
def rfcSum (bs : List Byte) : Nat := onesSum (256 * 256) (bigEndian 256 (bs.map toNat))

structure TcpPacket.Verifies (p : TcpPacket) : Prop where
  ip : rfcSum p.ipv4.bytes = 0xFFFF
  tcp : rfcSum (p.pseudoHeader ++ p.segment) = 0xFFFF

/-- The halves of the sum of the words add up to a 16-bit word. -/
def SumFits (ws : List Half) : Prop :=
  (ws.map toNat).sum % 65536 + (ws.map toNat).sum / 65536 < 65536

instance (ws : List Half) : Decidable (SumFits ws) := inferInstanceAs (Decidable (_ < _))

section Words
variable {ws : List Half}

theorem sum_le (ws : List Half) : (ws.map toNat).sum ≤ ws.length * 65535 := by
  induction ws with
  | nil => simp
  | cons w ws ih =>
    simp only [List.map_cons, List.sum_cons, List.length_cons]
    omega

theorem foldl_words (t : Word) (ws : List Half) :
    ws.foldl (fun tmp w => tmp + w.setWidth 32) t =
      t + ofNat 32 (ws.map toNat).sum := by
  induction ws generalizing t with
  | nil => simp
  | cons w ws ih =>
    have hw : w.setWidth 32 = ofNat 32 w.toNat := by
      apply eq_of_toNat_eq
      simp
    rw [List.foldl_cons, ih, List.map_cons, List.sum_cons, ofNat_add, hw,
      BitVec.add_assoc]

theorem sumWords_eq (ws : List Half) :
    sumWords ws = ofNat 32 (ws.map toNat).sum := by
  unfold sumWords
  rw [foldl_words]
  simp

theorem foldSum_toNat {t : Nat} (ht : t < 2 ^ 32) :
    (foldSum (ofNat 32 t)).toNat = 65535 - (t % 65536 + t / 65536) % 65536 := by
  have hl : (low (ofNat 32 t)).toNat = t % 65536 := by
    simp [low]
  have hh : (high (ofNat 32 t)).toNat = t / 65536 := by
    simp only [high, BitVec.extractLsb'_toNat, toNat_ofNat, Nat.mod_eq_of_lt ht,
      Nat.shiftRight_eq_div_pow]
    omega
  unfold foldSum
  rw [BitVec.toNat_not, BitVec.toNat_add, hl, hh]

theorem littleEndian_bytesOf (ws : List Half) (bs : List Nat) :
    littleEndian 256 ((bytesOf ws).map toNat ++ bs) =
      ws.map toNat ++ littleEndian 256 bs := by
  induction ws with
  | nil => rfl
  | cons w ws ih =>
    have hw : (w.extractLsb' 0 8).toNat + 256 * (w.extractLsb' 8 8).toNat = w.toNat := by
      simp only [BitVec.extractLsb'_toNat, Nat.shiftRight_eq_div_pow]
      omega
    show ((w.extractLsb' 0 8).toNat + 256 * (w.extractLsb' 8 8).toNat) ::
      littleEndian 256 ((bytesOf ws).map toNat ++ bs) = _
    rw [hw, ih]
    rfl

theorem littleEndian_data (data : List Byte) :
    littleEndian 256 (data.map toNat) = (dataWords data).map toNat := by
  induction data using dataWords.induct with
  | case1 => rfl
  | case2 a =>
    simp only [List.map_singleton, littleEndian, dataWords, BitVec.toNat_setWidth]
    rw [Nat.mod_eq_of_lt (by omega)]
  | case3 a b rest ih =>
    have hw : (b ++ a).toNat = a.toNat + 256 * b.toNat := by
      rw [BitVec.toNat_append, ← Nat.shiftLeft_add_eq_or_of_lt a.isLt, Nat.shiftLeft_eq]
      omega
    show (a.toNat + 256 * b.toNat) :: littleEndian 256 (rest.map toNat) = _
    rw [ih, ← hw]
    rfl

theorem map_toNat_lt (bs : List Byte) : ∀ b ∈ bs.map toNat, b < 256 := by
  intro b hb
  obtain ⟨a, -, rfl⟩ := List.mem_map.mp hb
  exact a.isLt

/-- A stored checksum verifies exactly if the code's one addition of the halves had no
carry. The `bs` are the bytes that it is over, itself among them. -/
theorem rfcSum_foldSum_iff {ws : List Half} {bs : List Byte} {b : Byte} {t : Word}
    (hlen : ws.length ≤ 65536) (ht : t = sumWords ws) (hb : b ∈ bs) (hne : b ≠ 0)
    (hbs : (littleEndian 256 (bs.map toNat)).sum =
      (ws.map toNat).sum + (foldSum t).toNat) :
    rfcSum bs = 0xFFFF ↔ SumFits ws := by
  have hle := sum_le ws
  have hlt : (ws.map toNat).sum < 2 ^ 32 := by omega
  have hne : b.toNat ≠ 0 := fun h => hne (eq_of_toNat_eq h)
  show onesSum (256 * 256) _ = 256 * 256 - 1 ↔ _
  rw [onesSum_bigEndian_iff (map_toNat_lt bs) (List.mem_map_of_mem hb) hne, hbs, ht, sumWords_eq,
    foldSum_toNat hlt]
  exact dvd_add_complement_iff (b := 65536) (by omega) (by omega)

end Words

section Packets

/-- The header that ipv4_checksum is taken of. -/
def Ipv4Header.cleared (h : Ipv4Header) : Ipv4Header := { h with checksum := 0 }

theorem Ipv4Header.protocol_mem (h : Ipv4Header) : h.protocol ∈ h.bytes := by
  have hb : (h.protocol ++ h.ttl).extractLsb' 8 8 = h.protocol := by
    have ht := h.ttl.isLt
    apply eq_of_toNat_eq
    rw [BitVec.extractLsb'_toNat, BitVec.toNat_append, ← Nat.shiftLeft_add_eq_or_of_lt ht,
      Nat.shiftLeft_eq, Nat.shiftRight_eq_div_pow]
    omega
  apply List.mem_flatMap.mpr
  refine ⟨h.protocol ++ h.ttl, by simp [words], ?_⟩
  rw [hb]
  simp

theorem Ipv4Header.verifies_iff {h : Ipv4Header} (hsum : h.checksum = ipv4Checksum h.cleared)
    (hne : h.protocol ≠ 0) : rfcSum h.bytes = 0xFFFF ↔ SumFits h.cleared.words := by
  apply rfcSum_foldSum_iff (by simp [words]) rfl h.protocol_mem hne
  have hle := littleEndian_bytesOf h.words []
  rw [List.append_nil] at hle
  have hs : foldSum (sumWords h.cleared.words) = h.checksum := hsum.symm
  have h0 : (0 : Half).toNat = 0 := rfl
  unfold bytes
  rw [hle, hs]
  simp only [words, cleared, List.map_cons, List.map_nil, List.sum_cons, List.sum_nil,
    littleEndian, List.append_nil, h0]
  omega

def TcpHeader.cleared (h : TcpHeader) : TcpHeader := { h with checksum := 0 }

/-- The words that tcp_checksum is over. -/
def TcpPacket.sumsOver (p : TcpPacket) : List Half :=
  [low p.ipv4.srcIp, high p.ipv4.srcIp, low p.ipv4.destIp, high p.ipv4.destIp] ++
    (htons 6).setWidth 16 :: (htons (20 + ofNat 32 p.data.length)).setWidth 16 ::
    (p.tcp.cleared.words ++ dataWords p.data)

/-- htons of a 16-bit number is the big-endian pair of its bytes. -/
theorem htons_toNat {n : Nat} (h : n < 65536) :
    (htons (ofNat 32 n)).toNat = n / 256 + 256 * (n % 256) := by
  have hlow : n &&& 255 = n % 256 := Nat.and_two_pow_sub_one_eq_mod n 8
  have hhigh : (n &&& 65280) >>> 8 = n / 256 := by
    rw [Nat.shiftRight_and_distrib, Nat.shiftRight_eq_div_pow]
    show n / 256 &&& 255 = _
    rw [Nat.and_two_pow_sub_one_eq_mod _ 8]
    omega
  have hn : n % 2 ^ 32 = n := Nat.mod_eq_of_lt (by omega)
  simp only [htons, BitVec.toNat_or, BitVec.toNat_shiftLeft, BitVec.toNat_ushiftRight,
    BitVec.toNat_and, toNat_ofNat, hn]
  show (n &&& 255) <<< 8 % 4294967296 ||| (n &&& 65280) >>> 8 = _
  rw [hlow, hhigh, Nat.mod_eq_of_lt (by rw [Nat.shiftLeft_eq]; omega),
    ← Nat.shiftLeft_add_eq_or_of_lt (by omega), Nat.shiftLeft_eq]
  omega

theorem sumWords_cons (w : Half) (ws : List Half) :
    sumWords (w :: ws) = w.setWidth 32 + sumWords ws := by
  have hw : w.setWidth 32 = ofNat 32 w.toNat := by
    apply eq_of_toNat_eq
    simp
  rw [sumWords_eq, sumWords_eq, List.map_cons, List.sum_cons, ofNat_add, hw]

theorem sumWords_append (ws vs : List Half) :
    sumWords (ws ++ vs) = sumWords ws + sumWords vs := by
  rw [sumWords_eq, sumWords_eq, sumWords_eq, List.map_append, List.sum_append, ofNat_add]

variable {p : TcpPacket}

theorem tcpChecksum_eq (h : p.tcp.checksum = 0) :
    tcpChecksum p = foldSum (sumWords p.sumsOver) := by
  have hc : p.tcp.cleared = p.tcp := by
    unfold TcpHeader.cleared
    rw [← h]
  unfold tcpChecksum TcpPacket.sumsOver
  conv_rhs =>
    rw [sumWords_append, sumWords_cons (BitVec.setWidth 16 _),
      sumWords_cons (BitVec.setWidth 16 _), htons_setWidth, htons_setWidth, hc,
      ← BitVec.add_assoc, ← BitVec.add_assoc]

theorem dataWords_length (data : List Byte) : (dataWords data).length ≤ data.length := by
  induction data using dataWords.induct with
  | case1 => exact Nat.le_refl _
  | case2 a => exact Nat.le_refl _
  | case3 a b rest ih =>
    simp only [dataWords, List.length_cons]
    omega

theorem TcpHeader.words_sum (h : TcpHeader) :
    (h.words.map toNat).sum =
      (h.cleared.words.map toNat).sum + h.checksum.toNat := by
  have h0 : (0 : Half).toNat = 0 := rfl
  simp only [words, cleared, List.map_cons, List.map_nil, List.sum_cons, List.sum_nil, h0]
  omega

/-- The sum of the machine's words of pseudo header and segment. -/
theorem TcpPacket.littleEndian_sum (hp : p.ipv4.protocol = 6)
    (hlen : p.data.length ≤ 65495) :
    (littleEndian 256 ((p.pseudoHeader ++ p.segment).map toNat)).sum =
      (p.sumsOver.map toNat).sum + p.tcp.checksum.toNat := by
  have hwords := p.tcp.words_sum
  have hl : (20 : Word) + ofNat 32 p.data.length = ofNat 32 (20 + p.data.length) :=
    (ofNat_add 20 p.data.length).symm
  have hsize : ((htons (ofNat 32 (20 + p.data.length))).setWidth 16).toNat =
      (20 + p.data.length) / 256 + 256 * ((20 + p.data.length) % 256) := by
    rw [BitVec.toNat_setWidth, htons_toNat (by omega), Nat.mod_eq_of_lt (by omega)]
  have htcp : ((htons 6).setWidth 16 : Half).toNat = 1536 := by decide
  have h0 : (0 : Byte).toNat = 0 := rfl
  have h6 : (6 : Byte).toNat = 6 := rfl
  unfold pseudoHeader segment sumsOver
  simp only [List.map_append, List.append_assoc, littleEndian_bytesOf, List.map_cons,
    List.map_nil, List.cons_append, List.nil_append, littleEndian, littleEndian_data,
    List.sum_append, List.sum_cons, hl, hsize, htcp, hp, hwords, h0, h6, toNat_ofNat]
  omega

theorem TcpPacket.verifies_tcp_iff (hp : p.ipv4.protocol = 6)
    (hlen : p.data.length ≤ 65495)
    (hsum : p.tcp.checksum = tcpChecksum { p with tcp := p.tcp.cleared }) :
    rfcSum (p.pseudoHeader ++ p.segment) = 0xFFFF ↔ SumFits p.sumsOver := by
  have hdata := dataWords_length p.data
  apply rfcSum_foldSum_iff (b := 6) (t := sumWords p.sumsOver)
  · simp only [sumsOver, TcpHeader.words, List.length_append, List.length_cons, List.length_nil]
    omega
  · rfl
  · simp [pseudoHeader, hp]
  · decide
  · rw [littleEndian_sum hp hlen, hsum, tcpChecksum_eq rfl]
    rfl

end Packets

section Senders
variable (mac destMac : Mac) (sinAddr : Word) (sinPort : Half) (opts : TcpOpts)
  (data : List Byte) (next : Word) (portSrc : Half) (seqNo ackNo : Word)

/-- What is sent: the built packet with the sender's port and numbers and the checksum. -/
def outgoing : TcpPacket :=
  (tcpBuildPacket mac destMac sinAddr sinPort opts data next).finish portSrc seqNo ackNo

/-- The checksums of an outgoing packet verify exactly if, for both of them, the halves of
the sum of the words with the checksum zero add up to at most 0xFFFF. -/
theorem outgoing_verifies_iff (hfits : 40 + data.length ≤ 65535) :
    (outgoing mac destMac sinAddr sinPort opts data next portSrc seqNo ackNo).Verifies ↔
      SumFits (outgoing mac destMac sinAddr sinPort opts data next portSrc seqNo
          ackNo).ipv4.cleared.words ∧
        SumFits (outgoing mac destMac sinAddr sinPort opts data next portSrc seqNo
          ackNo).sumsOver := by
  have hip := Ipv4Header.verifies_iff
    (h := (outgoing mac destMac sinAddr sinPort opts data next portSrc seqNo ackNo).ipv4) rfl
    (by show (6 : Byte) ≠ 0; decide)
  have htcp := TcpPacket.verifies_tcp_iff
    (p := outgoing mac destMac sinAddr sinPort opts data next portSrc seqNo ackNo) rfl
    (by show data.length ≤ _; omega) rfl
  rw [← hip, ← htcp]
  constructor
  · intro h
    exact ⟨h.ip, h.tcp⟩
  · intro h
    exact ⟨h.1, h.2⟩

/-- An empty segment with both sums small. -/
theorem outgoing_verifies_empty :
    (outgoing ⟨#[0, 0, 0, 0, 0, 0], rfl⟩ ⟨#[0, 0, 0, 0, 0, 0], rfl⟩ 0x01000014 0x5000 {} [] 0
      0x0100 7 9).Verifies :=
  (outgoing_verifies_iff _ _ _ _ _ [] _ _ _ _ (by decide)).mpr (by decide)

/-- A segment to 179.231.179.231: the sum of the IP header's words is 0x1FFFF. -/
theorem outgoing_bad_checksum :
    ¬ (outgoing ⟨#[0, 0, 0, 0, 0, 0], rfl⟩ ⟨#[0, 0, 0, 0, 0, 0], rfl⟩ 0xE7B3E7B3 0x5000 {} [] 0
      0x0100 7 9).Verifies := by
  intro h
  exact absurd h.ip (by decide)

end Senders
end TapiOS.Network
