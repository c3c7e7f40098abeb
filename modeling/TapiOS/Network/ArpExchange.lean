import Mathlib.Data.List.GetD
import TapiOS.Network.ArpCache

/-!
# Two hosts resolve an address

Host A asks for the address of host B with `arp_request`, B answers, and A binds the
answer. The frames travel as bytes, with anything behind them. `arp_request` does not fill
in the sender's hardware address, which is where B sends its answer to.
-/
namespace TapiOS.Network.Arp

open Lib Util Network

/-- The bytes of a packet and those the receiver's buffer holds behind them. -/
def ArpPacket.wire (p : ArpPacket) (rest : List Byte) : FrameReads.Bytes :=
  fun i => (p.bytes ++ rest).getD i 0

section Wire
variable {n : Node} {p : ArpPacket}

theorem value_copyFrom (m : FrameReads.Bytes) (o k : Nat) :
    (FrameReads.copyFrom o k).value m = (List.range k).map fun i => m (o + i) := by
  induction k generalizing o with
  | zero => rfl
  | succ k ih =>
    simp only [FrameReads.copyFrom, Access.value_bind, Access.value_cell, Access.value_pure, ih,
      List.range_succ_eq_map, List.map_cons, List.map_map, Nat.add_zero]
    congr 1
    apply List.map_congr_left
    intro i _
    congr 1
    omega

theorem bytes_length (h : ArpHeader) : h.bytes.length = 28 := by
  simp [ArpHeader.bytes, halfBytes, wordBytes]

/-- The header of a packet starts behind the 14 bytes of the ethernet header. -/
theorem wire_header (rest : List Byte) :
    (List.range 28).map (fun i => p.wire rest (14 + i)) = p.arpHeader.bytes := by
  have hlen := bytes_length p.arpHeader
  have heth : (p.ethHeader.macDst.toList ++ p.ethHeader.macSrc.toList ++
      halfBytes p.ethHeader.ethertype).length = 14 := by
    simp [halfBytes]
  apply List.ext_getElem
  · rw [List.length_map, List.length_range, hlen]
  · intro i hi hi'
    rw [List.getElem_map, List.getElem_range, ArpPacket.wire, ArpPacket.bytes, List.append_assoc,
      List.getD_append_right _ _ _ _ (by omega), heth, Nat.add_sub_cancel_left,
      List.getD_append _ _ _ _ hi', List.getD_eq_getElem _ _ hi']

theorem wire_ethertype (rest : List Byte) :
    FrameReads.ethertype.value (p.wire rest) = p.ethHeader.ethertype := by
  have h : p.wire rest 13 ++ p.wire rest 12 = p.ethHeader.ethertype := by
    simp only [ArpPacket.wire, ArpPacket.bytes, halfBytes, mac_toList, List.cons_append,
      List.nil_append]
    exact BitVec.extractLsb'_append_extractLsb'
  rw [← h]
  rfl

/-- A frame of the ARP type is handled by arp_handle_frame, which gets its header. -/
theorem ethernetHandleFrame_arp (rest : List Byte)
    (ht : p.ethHeader.ethertype = (htons FrameReads.ARP).setWidth 16) :
    ethernetHandleFrame n (p.wire rest) = arpHandleFrame n p.arpHeader.bytes := by
  have harp : (FrameReads.ethernetHandleFrame n.mac n.net).value (p.wire rest) =
      .arp p.arpHeader.bytes := by
    rw [FrameReads.ethernetHandleFrame, Access.value_bind, wire_ethertype, ht, if_neg (by decide),
      if_pos (by decide), Access.value_bind, FrameReads.arpHandleFrame, value_copyFrom,
      wire_header, Access.value_pure]
  rw [ethernetHandleFrame, harp]

end Wire

/-- B answers the request of A, the answer is sent to A, and A finds B afterwards. -/
def Resolves (a b : Node) (uninit : ArpPacket) (rest rest' : List Byte) : Prop :=
  ∃ reply b', ethernetHandleFrame b ((arpRequest a uninit (htonl b.myIp)).wire rest) =
      .ok (some reply, b') ∧
    reply.ethHeader.macDst = a.mac ∧ reply.arpHeader.targetMac = a.mac ∧
    ∃ out a', ethernetHandleFrame a (reply.wire rest') = .ok (out, a') ∧
      arpFindMac a' (htonl b.myIp) = .ok (some b.mac)

section Exchange
variable {a b : Node} {uninit : ArpPacket} {ss : List Word} {l : List (Word × Mac)}

theorem request_answered (rest : List Byte) :
    ethernetHandleFrame b ((arpRequest a uninit (htonl b.myIp)).wire rest) =
      .ok (some (b.reply (arpRequest a uninit (htonl b.myIp)).arpHeader), b) := by
  have hp := ofBytes_bytes (arpRequest a uninit (htonl b.myIp)).arpHeader []
  rw [List.append_nil] at hp
  rw [ethernetHandleFrame_arp rest rfl]
  unfold arpHandleFrame
  rw [hp, if_pos]
  constructor
  · show ((htons ARP_REQUEST).setWidth 16).setWidth 32 == htons ARP_REQUEST
    decide
  · rfl

variable (a b uninit) in
theorem reply_learned (rest : List Byte) :
    ethernetHandleFrame a
        ((b.reply (arpRequest a uninit (htonl b.myIp)).arpHeader).wire rest) = (do
      let n ← a.learn (b.reply (arpRequest a uninit (htonl b.myIp)).arpHeader).arpHeader
      return (none, n)) := by
  have hp := ofBytes_bytes (b.reply (arpRequest a uninit (htonl b.myIp)).arpHeader).arpHeader []
  rw [List.append_nil] at hp
  rw [ethernetHandleFrame_arp rest rfl, handle_answer, hp]
  rw [answers, hp, Bool.and_eq_true]
  constructor
  · show ((htons ARP_REPLY).setWidth 16).setWidth 32 == htons ARP_REPLY
    decide
  · exact beq_self_eq_true _

/-- After a reply its address is found, with the binding from before if there was one. -/
theorem Caches.learn_finds {p : ArpHeader} (h : Caches a ss l) (hs : Stocked a)
    (hsup : a.supply ≠ []) : ∃ a', a.learn p = .ok a' ∧
      arpFindMac a' p.sourceIp =
        .ok (some (((l.find? fun m => m.1 == p.sourceIp).map (·.2)).getD p.sourceMac)) := by
  obtain ⟨c, rest, hb⟩ := List.exists_cons_of_ne_nil hsup
  cases hf : l.find? fun m => m.1 == p.sourceIp with
  | some m =>
    have hip := List.find?_some hf
    have hk : ∃ m ∈ l, m.1 = p.sourceIp := ⟨m, List.mem_of_find?_eq_some hf, beq_iff_eq.mp hip⟩
    refine ⟨a, h.learn_known hk, ?_⟩
    rw [h.findMac, hf]
    rfl
  | none =>
    have hk : ∀ m ∈ l, m.1 ≠ p.sourceIp := by
      intro m hm he
      exact List.find?_eq_none.mp hf m hm (beq_iff_eq.mpr he)
    rcases List.eq_nil_or_concat ss with rfl | ⟨xs, q, rfl⟩
    · -- the new entry is the first, and the walk stops there whatever its link is
      obtain ⟨a', hl, hcache, -, -, hheap⟩ := learn_first (p := p) h.chain hb
      have hc0 : c.ptr ≠ 0 := hs.ne_zero c (by simp [hb])
      have hfind : a'.find (fun s => (a'.heap s).ip == p.sourceIp) = .ok c.ptr := by
        rw [Node.find, hcache, findAlong_here hc0 (by rw [hheap]; exact beq_self_eq_true _)
          (by decide)]
      refine ⟨a', hl, ?_⟩
      rw [arpFindMac, hfind, ok_bind, if_neg hc0, hheap]
      rfl
    · rw [List.concat_eq_append] at h
      obtain ⟨a', hl, hc, -, -⟩ := h.append hs hk hb
      refine ⟨a', hl, ?_⟩
      rw [hc.findMac, List.find?_append, hf, List.find?_singleton, if_pos (beq_self_eq_true _)]
      rfl

end Exchange

/-- Resolution works if and only if the memory that the sender's hardware address is sent
from happens to hold that address, and A has not bound the address of B to another one. -/
theorem arp_resolution_iff (a b : Node) (uninit : ArpPacket) (rest rest' : List Byte)
    (ss : List Word) (l : List (Word × Mac)) (hc : Caches a ss l) (hs : Stocked a)
    (hsup : a.supply ≠ []) :
    Resolves a b uninit rest rest' ↔ uninit.arpHeader.sourceMac = a.mac ∧
      (arpFindMac a (htonl b.myIp) = .ok none ∨
        arpFindMac a (htonl b.myIp) = .ok (some b.mac)) := by
  obtain ⟨a', hl, hfind⟩ := hc.learn_finds
    (p := (b.reply (arpRequest a uninit (htonl b.myIp)).arpHeader).arpHeader) hs hsup
  have hhandled := reply_learned a b uninit rest'
  rw [hl, ok_bind] at hhandled
  -- the two addresses of the reply are those of B
  change arpFindMac a' (htonl b.myIp) =
    .ok (some (((l.find? fun m => m.1 == htonl b.myIp).map (·.2)).getD b.mac)) at hfind
  rw [hc.findMac]
  constructor
  · intro h
    obtain ⟨reply, b', hb, hdst, -, out, a'', ha, hmac⟩ := h
    rw [request_answered] at hb
    obtain ⟨hreply, -⟩ := Prod.mk.inj (Except.ok.inj hb)
    cases hreply
    rw [hhandled] at ha
    obtain ⟨-, rfl⟩ := Prod.mk.inj (Except.ok.inj ha)
    refine ⟨hdst, ?_⟩
    rw [hfind] at hmac
    have hm := Option.some.inj (Except.ok.inj hmac)
    cases hf : (l.find? fun m => m.1 == htonl b.myIp).map (·.2) with
    | none => exact .inl rfl
    | some m =>
      rw [hf, Option.getD_some] at hm
      exact .inr (by rw [hm])
  · intro h
    obtain ⟨hmac, hbound⟩ := h
    refine ⟨_, b, request_answered rest, hmac, hmac, none, a', hhandled, ?_⟩
    rw [hfind]
    rcases hbound with hf | hf
    · rw [Except.ok.inj hf, Option.getD_none]
    · rw [Except.ok.inj hf, Option.getD_some]

/-- Host 1, with an empty cache. -/
def asking : Node := lonelyNode ⟨7, Vector.replicate 6 7, 0xDEAD⟩

/-- Host 2. -/
def asked : Node := { asking with myIp := 2, mac := Vector.replicate 6 2 }

/-- A stack frame that holds a hardware address where the sender's is expected. -/
def stackWith (mac : Mac) : ArpPacket where
  ethHeader := ⟨Vector.replicate 6 0, Vector.replicate 6 0, 0⟩
  arpHeader := ⟨0, 0, 0, 0, 0, mac, 0, Vector.replicate 6 0, 0⟩

theorem asking_caches : Caches asking [] [] :=
  ⟨rfl, List.nodup_nil, rfl, by simp, by simp⟩

theorem arp_resolution_lucky : Resolves asking asked (stackWith (Vector.replicate 6 1)) [] [] := by
  apply (arp_resolution_iff asking asked (stackWith (Vector.replicate 6 1)) [] [] [] []
    asking_caches (lonelyNode_stocked _) (List.cons_ne_nil _ _)).mpr
  constructor
  · rfl
  · left
    rw [asking_caches.findMac]
    rfl

/-- With zeros on the stack, host 2 sends its answer to the hardware address zero. -/
theorem arp_reply_misdirected : asking.myIp ≠ asked.myIp ∧ asking.mac ≠ asked.mac ∧
    ¬ Resolves asking asked (stackWith (Vector.replicate 6 0)) [] [] := by
  refine ⟨by decide, by decide, ?_⟩
  intro h
  obtain ⟨reply, b', hb, hdst, -⟩ := h
  rw [request_answered] at hb
  obtain ⟨hreply, -⟩ := Prod.mk.inj (Except.ok.inj hb)
  cases hreply
  exact absurd hdst (by decide)

end TapiOS.Network.Arp
