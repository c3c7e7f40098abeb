import TapiOS.Network.Tcp

/-!
# Sequence numbers kept in network byte order

The code adds to `seq_no` and `ack_no` without swapping their bytes first, so a carry
moves to the wrong byte: `htonl (htonl n + htonl c)` is `n + c` exactly when no byte
of `n` overflows. From this follow the numbers of the segments that socket_write
sends and of the answers to SYN and FIN.
-/
namespace TapiOS.Network.Sequence

open Util Network
open BitVec (ofNat toNat_add)

/-- No byte of the sum needs a carry. -/
def NoCarry (n c : Word) : Prop :=
  ∀ i < 4, (wordByte n i).toNat + (wordByte c i).toNat < 256

instance (n c : Word) : Decidable (NoCarry n c) := inferInstanceAs (Decidable (∀ i < 4, _))

theorem wordByte_htonl (x : Word) {i : Nat} (hi : i < 4) :
    wordByte (htonl x) i = wordByte x (3 - i) := by
  apply BitVec.eq_of_getLsbD_eq
  intro j hj
  simp only [wordByte, htonl, BitVec.getLsbD_extractLsb', BitVec.getLsbD_or, BitVec.getLsbD_and,
    BitVec.getLsbD_shiftLeft, BitVec.getLsbD_ushiftRight]
  interval_cases i <;> interval_cases j <;> simp [BitVec.getLsbD_of_ge]

theorem toNat_wordByte (x : Word) (i : Nat) : (wordByte x i).toNat = x.toNat / 256 ^ i % 256 := by
  rw [wordByte, BitVec.extractLsb'_toNat, Nat.shiftRight_eq_div_pow, Nat.pow_mul]

theorem toNat_eq_bytes (x : Word) :
    x.toNat = (wordByte x 0).toNat + 256 * (wordByte x 1).toNat + 65536 * (wordByte x 2).toNat +
      16777216 * (wordByte x 3).toNat := by
  simp only [toNat_wordByte]
  omega

theorem toNat_htonl (x : Word) :
    (htonl x).toNat = (wordByte x 3).toNat + 256 * (wordByte x 2).toNat +
      65536 * (wordByte x 1).toNat + 16777216 * (wordByte x 0).toNat := by
  rw [toNat_eq_bytes, wordByte_htonl x (by omega), wordByte_htonl x (by omega),
    wordByte_htonl x (by omega), wordByte_htonl x (by omega)]

section Carries
variable {t0 t1 t2 t3 r0 r1 r2 r3 : Nat}

/-- The carries of a sum of four digits, from the first digit up. -/
theorem carries (h0 : r0 < 256) (h1 : r1 < 256) (h2 : r2 < 256) (h3 : r3 < 256)
    (h : r0 + 256 * r1 + 65536 * r2 + 16777216 * r3 =
      (t0 + 256 * t1 + 65536 * t2 + 16777216 * t3) % 4294967296) :
    ∃ k0 k1 k2 k3, t0 + 0 = r0 + 256 * k0 ∧ t1 + k0 = r1 + 256 * k1 ∧ t2 + k1 = r2 + 256 * k2 ∧
      t3 + k2 = r3 + 256 * k3 := by
  refine ⟨t0 / 256, (t1 + t0 / 256) / 256, (t2 + (t1 + t0 / 256) / 256) / 256,
    (t3 + (t2 + (t1 + t0 / 256) / 256) / 256) / 256, ?_⟩
  omega

theorem carry_le {t r a k : Nat} (ht : t ≤ 510) (ha : a ≤ 1) (h : t + a = r + 256 * k) :
    k ≤ 1 := by
  omega

/-- A digit tells which carry came in. -/
theorem carry_unique {t r a b k l : Nat} (ha : a ≤ 1) (hb : b ≤ 1) (h : t + a = r + 256 * k)
    (h' : t + b = r + 256 * l) : a = b ∧ k = l := by
  omega

/-- Sums of two digits that give the same digits with the carries going up as with the
carries going down have no carries. -/
theorem no_carries (b0 : t0 ≤ 510) (b1 : t1 ≤ 510) (b2 : t2 ≤ 510) (b3 : t3 ≤ 510)
    (h0 : r0 < 256) (h1 : r1 < 256) (h2 : r2 < 256) (h3 : r3 < 256)
    (hup : r0 + 256 * r1 + 65536 * r2 + 16777216 * r3 =
      (t0 + 256 * t1 + 65536 * t2 + 16777216 * t3) % 4294967296)
    (hdown : r3 + 256 * r2 + 65536 * r1 + 16777216 * r0 =
      (t3 + 256 * t2 + 65536 * t1 + 16777216 * t0) % 4294967296) :
    t0 = r0 ∧ t1 = r1 ∧ t2 = r2 ∧ t3 = r3 := by
  obtain ⟨k0, k1, k2, k3, e0, e1, e2, e3⟩ := carries h0 h1 h2 h3 hup
  obtain ⟨l3, l2, l1, l0, d3, d2, d1, d0⟩ := carries h3 h2 h1 h0 hdown
  have hk0 := carry_le b0 (by omega) e0
  have hk1 := carry_le b1 hk0 e1
  have hk2 := carry_le b2 hk1 e2
  have hl3 := carry_le b3 (by omega) d3
  have hl2 := carry_le b2 hl3 d2
  have hl1 := carry_le b1 hl2 d1
  obtain ⟨rfl, rfl⟩ := carry_unique (Nat.zero_le 1) hl1 e0 d0
  obtain ⟨rfl, rfl⟩ := carry_unique hk0 hl2 e1 d1
  obtain ⟨rfl, rfl⟩ := carry_unique hk1 hl3 e2 d2
  obtain ⟨rfl, rfl⟩ := carry_unique hk2 (Nat.zero_le 1) e3 d3
  exact ⟨e0, e1, e2, e3⟩

end Carries

theorem noCarry_iff (n c : Word) :
    NoCarry n c ↔ (wordByte n 0).toNat + (wordByte c 0).toNat < 256 ∧
      (wordByte n 1).toNat + (wordByte c 1).toNat < 256 ∧
      (wordByte n 2).toNat + (wordByte c 2).toNat < 256 ∧
      (wordByte n 3).toNat + (wordByte c 3).toNat < 256 := by
  refine ⟨fun h => ⟨h 0 (by omega), h 1 (by omega), h 2 (by omega), h 3 (by omega)⟩, ?_⟩
  intro h i hi
  have hi' : i = 0 ∨ i = 1 ∨ i = 2 ∨ i = 3 := by omega
  rcases hi' with rfl | rfl | rfl | rfl
  · exact h.1
  · exact h.2.1
  · exact h.2.2.1
  · exact h.2.2.2

/-- Adding two swapped words gives the swapped sum exactly when no byte overflows: the
carries of one sum go up where those of the other go down. -/
theorem htonl_add_iff (n c : Word) : htonl n + htonl c = htonl (n + c) ↔ NoCarry n c := by
  have hb (x : Word) (i : Nat) : (wordByte x i).toNat < 256 := (wordByte x i).isLt
  have ht (i : Nat) : (wordByte n i).toNat + (wordByte c i).toNat ≤ 510 := by
    omega
  have hsum := toNat_eq_bytes (n + c)
  rw [toNat_add, toNat_eq_bytes n, toNat_eq_bytes c] at hsum
  have hup := hsum.symm.trans (congrArg (· % 2 ^ 32) (show _ =
    (wordByte n 0).toNat + (wordByte c 0).toNat +
      256 * ((wordByte n 1).toNat + (wordByte c 1).toNat) +
      65536 * ((wordByte n 2).toNat + (wordByte c 2).toNat) +
      16777216 * ((wordByte n 3).toNat + (wordByte c 3).toNat) by omega))
  rw [noCarry_iff, ← BitVec.toNat_inj, toNat_add, toNat_htonl, toNat_htonl, toNat_htonl]
  refine ⟨fun h => ?_, fun h => ?_⟩
  · have hdown := h.symm.trans (congrArg (· % 2 ^ 32) (show _ =
      (wordByte n 3).toNat + (wordByte c 3).toNat +
        256 * ((wordByte n 2).toNat + (wordByte c 2).toNat) +
        65536 * ((wordByte n 1).toNat + (wordByte c 1).toNat) +
        16777216 * ((wordByte n 0).toNat + (wordByte c 0).toNat) by omega))
    obtain ⟨h0, h1, h2, h3⟩ := no_carries (ht 0) (ht 1) (ht 2) (ht 3) (hb (n + c) 0)
      (hb (n + c) 1) (hb (n + c) 2) (hb (n + c) 3) hup hdown
    rw [h0, h1, h2, h3]
    exact ⟨hb _ _, hb _ _, hb _ _, hb _ _⟩
  · rw [Nat.mod_eq_of_lt (by omega)]
    omega

/-- The numbers as the code keeps them: adding a swapped count to a swapped number. -/
theorem swapped_add_iff (s c : Word) :
    htonl (s + htonl c) = htonl s + c ↔ NoCarry (htonl s) c := by
  rw [← htonl_add_iff, htonl_htonl]
  refine ⟨fun h => ?_, fun h => ?_⟩
  · rw [← h, htonl_htonl]
  · rw [h, htonl_htonl]

/-- The segment socket_write builds for the socket at `s`. -/
def dataSegment (mac : Mac) (net : Net) (s : Word) (data : List Byte) : TcpPacket :=
  let sock := net.heap s
  let p := tcpBuildPacket mac sock.dstMac sock.saddr.sinAddr sock.saddr.sinPort ackOpts data
    (nextRandom net.next)
  p.finish sock.srcPort sock.seqNo sock.ackNo

/-- socket_write through the socket at `s`; the count is the length of the data. -/
def socketWrite (mac : Mac) (net : Net) (s : Word) (data : List Byte) : Net :=
  let p := dataSegment mac net s data
  let net' := net.modify s (fun sock => { sock with
    seqNo := p.tcp.seqNo + htonl (ofNat 32 data.length), ackNo := p.tcp.ackNo })
  net'.transmit (nextRandom net.next) p

/-- One socket_write after the other. -/
def socketWrites (mac : Mac) (s : Word) (net : Net) (writes : List (List Byte)) : Net :=
  writes.foldl (fun net data => socketWrite mac net s data) net

/-- The segments of these calls, the first one first. -/
def segments (mac : Mac) (s : Word) (net : Net) (writes : List (List Byte)) : List TcpPacket :=
  ((socketWrites mac s net writes).sent.take writes.length).reverse

/-- The bytes of the first `k` calls. -/
def bytesBefore (writes : List (List Byte)) (k : Nat) : Word :=
  ofNat 32 ((writes.take k).map List.length).sum

section Writes
variable (mac : Mac) (s : Word)

@[simp] theorem socketWrite_sent (net : Net) (data : List Byte) :
    (socketWrite mac net s data).sent = dataSegment mac net s data :: net.sent := rfl

theorem socketWrite_seqNo (net : Net) (data : List Byte) :
    ((socketWrite mac net s data).heap s).seqNo =
      (net.heap s).seqNo + htonl (ofNat 32 data.length) := by
  rw [socketWrite, transmit_heap, modify_heap_same]
  rfl

/-- The segments of a sequence of calls stand in front of what was sent before. -/
theorem socketWrites_sent (net : Net) (writes : List (List Byte)) :
    (socketWrites mac s net writes).sent = (segments mac s net writes).reverse ++ net.sent ∧
      (segments mac s net writes).length = writes.length := by
  suffices h : ∃ ps : List TcpPacket, ps.length = writes.length ∧
      (socketWrites mac s net writes).sent = ps ++ net.sent by
    obtain ⟨ps, hl, hs⟩ := h
    rw [segments, hs, ← hl, List.take_left, List.reverse_reverse, List.length_reverse]
    exact ⟨rfl, rfl⟩
  induction writes generalizing net with
  | nil => exact ⟨[], rfl, rfl⟩
  | cons data writes ih =>
    obtain ⟨ps, hl, hs⟩ := ih (socketWrite mac net s data)
    refine ⟨ps ++ [dataSegment mac net s data], by simp [hl], ?_⟩
    rw [List.append_assoc]
    exact hs

theorem segments_cons (net : Net) (data : List Byte) (writes : List (List Byte)) :
    segments mac s net (data :: writes) =
      dataSegment mac net s data :: segments mac s (socketWrite mac net s data) writes := by
  have h := (socketWrites_sent mac s net (data :: writes)).1
  have h' := (socketWrites_sent mac s (socketWrite mac net s data) writes).1
  rw [socketWrite_sent] at h'
  have he := h.symm.trans h'
  rw [List.append_cons, List.append_left_inj, List.reverse_eq_iff] at he
  rw [he, List.reverse_append, List.reverse_reverse, List.reverse_singleton, List.singleton_append]

theorem bytesBefore_succ (data : List Byte) (writes : List (List Byte)) (k : Nat) :
    bytesBefore (data :: writes) (k + 1) =
      ofNat 32 data.length + bytesBefore writes k := by
  rw [bytesBefore, bytesBefore, List.take_succ_cons, List.map_cons, List.sum_cons, BitVec.ofNat_add]

end Writes

/-- Every segment carries the first number plus the bytes written before it. -/
def Continuous (mac : Mac) (s : Word) (net : Net) (writes : List (List Byte)) : Prop :=
  ∀ k p, (segments mac s net writes)[k]? = some p →
    htonl p.tcp.seqNo = htonl (net.heap s).seqNo + bytesBefore writes k

/-- In every call but the last, adding the count to the number `n` that is due overflows
no byte. -/
def CarryFree (n : Word) (writes : List (List Byte)) : Prop :=
  ∀ k data, k + 1 < writes.length → writes[k]? = some data →
    NoCarry (n + bytesBefore writes k) (ofNat 32 data.length)

section Continuity
variable {mac : Mac} {s n : Word} {net : Net} {data : List Byte} {writes : List (List Byte)}

@[simp] theorem bytesBefore_zero (writes : List (List Byte)) : bytesBefore writes 0 = 0#32 := rfl

theorem continuous_cons_iff : Continuous mac s net (data :: writes) ↔
    ∀ k p, (segments mac s (socketWrite mac net s data) writes)[k]? = some p →
      htonl p.tcp.seqNo = htonl (net.heap s).seqNo + ofNat 32 data.length +
        bytesBefore writes k := by
  refine ⟨fun h k p hp => ?_, fun h k p hp => ?_⟩
  · have hk := h (k + 1) p (by rw [segments_cons, List.getElem?_cons_succ, hp])
    rw [hk, bytesBefore_succ, BitVec.add_assoc]
  · rw [segments_cons] at hp
    cases k with
    | zero =>
      rw [List.getElem?_cons_zero, Option.some.injEq] at hp
      rw [← hp, bytesBefore_zero, BitVec.add_zero]
      rfl
    | succ k =>
      rw [h k p (by rw [← hp, List.getElem?_cons_succ]), bytesBefore_succ, BitVec.add_assoc]

theorem carryFree_cons_iff (hne : writes ≠ []) : CarryFree n (data :: writes) ↔
    NoCarry n (ofNat 32 data.length) ∧
      CarryFree (n + ofNat 32 data.length) writes := by
  have hlen : 0 < writes.length := List.length_pos_iff.mpr hne
  refine ⟨fun h => ⟨?_, fun k d hk hd => ?_⟩, fun h k d hk hd => ?_⟩
  · have h0 := h 0 data (by simpa using hlen) rfl
    rwa [bytesBefore_zero, BitVec.add_zero] at h0
  · have hs := h (k + 1) d (by simpa using hk) (by rw [List.getElem?_cons_succ, hd])
    rwa [bytesBefore_succ, ← BitVec.add_assoc] at hs
  · cases k with
    | zero =>
      rw [List.getElem?_cons_zero, Option.some.injEq] at hd
      rw [← hd, bytesBefore_zero, BitVec.add_zero]
      exact h.1
    | succ k =>
      rw [bytesBefore_succ, ← BitVec.add_assoc]
      exact h.2 k d (by simpa using hk) (by rw [← hd, List.getElem?_cons_succ])

theorem segments_head (hne : writes ≠ []) :
    ∃ p, (segments mac s net writes)[0]? = some p ∧ p.tcp.seqNo = (net.heap s).seqNo := by
  cases writes with
  | nil => exact absurd rfl hne
  | cons data writes => exact ⟨_, by rw [segments_cons, List.getElem?_cons_zero], rfl⟩

end Continuity

/-- For every socket with any `seq_no` and every sequence of socket_write calls: the
segments carry the numbers they should exactly when the counts never make a byte of such
a number overflow. -/
theorem sequence_continuous_iff (mac : Mac) (s : Word) (net : Net) (writes : List (List Byte)) :
    Continuous mac s net writes ↔ CarryFree (htonl (net.heap s).seqNo) writes := by
  induction writes generalizing net with
  | nil => simp [Continuous, CarryFree, segments, socketWrites]
  | cons data writes ih =>
    rw [continuous_cons_iff]
    by_cases hne : writes = []
    · subst hne
      simp [CarryFree, segments, socketWrites]
    rw [carryFree_cons_iff hne, ← swapped_add_iff, ← socketWrite_seqNo mac s net data]
    refine ⟨fun h => ?_, fun h => ?_⟩
    · -- the number of the next segment tells whether this step was right
      obtain ⟨p, hp, hseq⟩ := segments_head (s := s)
        hne
      have h0 := h 0 p hp
      rw [hseq, bytesBefore_zero, BitVec.add_zero] at h0
      refine ⟨h0, ?_⟩
      rw [← h0] at h ⊢
      exact (ih _).mp h
    · obtain ⟨h0, hrest⟩ := h
      rw [← h0] at hrest ⊢
      exact (ih _).mpr hrest

/-- A socket whose first byte has number 255 writes one byte twice: the second segment
starts at 0 again. -/
theorem sequence_restarts :
    ¬ ∀ (mac : Mac) (s : Word) (net : Net) (writes : List (List Byte)),
      (net.heap s).state = CONNECTED → Continuous mac s net writes := by
  intro h
  let net : Net := ⟨fun _ => { clearedSocket with state := CONNECTED, seqNo := htonl 255 },
    0x1000, 0, [], []⟩
  obtain ⟨p, hp, hseq⟩ : ∃ p ∈ (segments (Vector.replicate 6 0) 0x1000 net [[0], [0]])[1]?,
      htonl p.tcp.seqNo = 0 := by decide +kernel
  have hc := h (Vector.replicate 6 0) 0x1000 net [[0], [0]] rfl 1 p hp
  rw [hseq] at hc
  exact absurd hc (by decide)

end TapiOS.Network.Sequence
