import TapiOS.Network.FrameReads

/-!
# Which bytes of a frame are read

The receive path never compares a length with an offset. The headers are read at fixed
offsets and the payload as far as the IPv4 length says, so the reads stay inside a frame
when the frame is long enough for its own contents.
-/
namespace TapiOS.Network.FrameReads

open Lib Lib.Access Util Network

/-- The segment takes the branch of tcp_handle_frame that stores payload. -/
def takesData (opts : TcpOpts) (state : Byte) : Bool :=
  opts.ack && !opts.syn && !closes opts state && !(state == FIN_WAIT1) &&
    !(opts.fin && state == CONNECTED)

/-- It takes that branch for the socket that the demultiplexing loop finds. -/
def reachesData (net : Net) (fr : Frame) : Bool :=
  match net.find (Network.portTest net fr) with
  | none => false
  | some s => s ≠ 0 && takesData fr.tcp.opts (net.heap s).state

/-- tcp_handle_frame takes that branch. -/
def delivers (net : Net) (fr : Frame) : Bool :=
  match Network.handleReset net fr with
  | none => false
  | some net => reachesData net fr

/-- `htons(iph->length)` as a number. -/
def total (fr : Frame) : Nat := (htons (fr.ip.length.setWidth 32)).toNat

def IsIpv4 (m : Bytes) : Prop := htons ((frame m).eth.ethertype.setWidth 32) = IPV4
def IsArp (m : Bytes) : Prop := htons ((frame m).eth.ethertype.setWidth 32) = ARP
def IsTcp (m : Bytes) : Prop := IsIpv4 m ∧ (frame m).ip.protocol = TCP_PROTOCOL_NUMBER

/-- Handling a frame of `len` bytes reads no byte behind it, and a TCP payload that is
delivered is the announced length without the headers and lies in the frame. -/
structure InBounds (mac : Mac) (net : Net) (m : Bytes) (len : Nat) : Prop where
  reads : (ethernetHandleFrame mac net).Only m (· < len)
  payload : IsTcp m → delivers net (frame m) →
    (datalen (frame m)).toNat + 40 = total (frame m) ∧ (datalen (frame m)).toNat ≤ len - 54

/-- The frame is as long as the headers that its contents announce, of the TCP header up
to the flags, and payload that will be stored lies inside it. -/
structure Fits (net : Net) (m : Bytes) (len : Nat) : Prop where
  ethernet : 14 ≤ len
  arp : IsArp m → 42 ≤ len
  ipv4 : IsIpv4 m → 24 ≤ len
  tcp : IsTcp m → 48 ≤ len
  payload : IsTcp m → delivers net (frame m) →
    total (frame m) = 40 ∨ 40 < total (frame m) ∧ 14 + total (frame m) ≤ len

section Header
variable {m : Bytes} {mac : Mac} {net : Net} {sock : Word} {o n : Nat}

theorem only_half (h : o + 2 ≤ n) : (half o).Only m (· < n) :=
  only_bind (only_cell (by omega)) (only_bind (only_cell (by omega)) (only_pure _))

theorem only_word (h : o + 4 ≤ n) : (word o).Only m (· < n) :=
  only_bind (only_half (by omega)) (only_bind (only_half (by omega)) (only_pure _))

theorem only_mac (h : o + 6 ≤ n) : (macAddress o).Only m (· < n) :=
  only_bind (only_cell (by omega)) (only_bind (only_cell (by omega))
    (only_bind (only_cell (by omega)) (only_bind (only_cell (by omega))
    (only_bind (only_cell (by omega)) (only_bind (only_cell (by omega)) (only_pure _))))))

theorem only_copyFrom_iff (k : Nat) : (copyFrom o (k + 1)).Only m (· < n) ↔ o + k < n := by
  induction k generalizing o with
  | zero =>
    show Only m _ (cell o >>= fun b => (pure [] : Reading (List Byte)) >>= fun bs => pure (b :: bs)) ↔ _
    rw [only_bind_iff, only_cell_iff]
    exact ⟨fun h => h.1, fun h => ⟨h, only_bind (only_pure _) (only_pure _)⟩⟩
  | succ k ih =>
    show Only m _ (cell o >>= fun b => copyFrom (o + 1) (k + 1) >>= fun bs => pure (b :: bs)) ↔ _
    rw [only_bind_iff, only_bind_iff, only_cell_iff, ih]
    refine ⟨fun h => by omega, fun h => ⟨by omega, by omega, only_pure _⟩⟩

theorem only_find {P : Nat → Prop} {test : Word → Reading Bool}
    (h : ∀ s, (test s).Only m P) : (find net test).Only m P := by
  suffices hl : ∀ n s, (findLoop net.heap test n s).Only m P from hl _ _
  intro n
  induction n with
  | zero => exact fun s => only_pure _
  | succ n ih =>
    intro s
    unfold findLoop
    split
    · exact only_pure _
    · refine only_bind (h s) ?_
      split
      · exact only_pure _
      · exact ih _

theorem only_tcpRemoveConnection : (tcpRemoveConnection net).Only m (· < 48) := by
  refine only_bind (only_find fun s => ?_) (only_pure _)
  refine only_bind (only_word (by omega)) ?_
  split
  · exact only_bind (only_half (by omega)) (only_pure _)
  · exact only_pure _

theorem only_handleReset : (handleReset net).Only m (· < 48) := by
  refine only_bind (only_cell (by omega)) ?_
  split
  · exact only_bind only_tcpRemoveConnection (only_pure _)
  · exact only_pure _

theorem only_sendAck : (sendAck mac net sock).Only m (· < 48) :=
  only_bind (only_word (by omega)) (only_bind (only_word (by omega)) (only_pure _))

theorem only_handleClosing : (handleClosing mac net sock).Only m (· < 48) := by
  refine only_bind ?_ (only_bind only_tcpRemoveConnection (only_pure _))
  unfold ackClosing
  split
  · exact only_sendAck
  · exact only_pure _

theorem only_handleFin : (handleFin mac net sock).Only m (· < 48) :=
  only_bind (only_cell (by omega)) (only_pure _)

theorem only_rejectSyn : (rejectSyn mac net).Only m (· < 48) := by
  refine only_bind (only_word (by omega)) (only_bind (only_half (by omega)) ?_)
  refine only_bind (only_mac (by omega)) (only_bind (only_half (by omega)) ?_)
  exact only_bind (only_word (by omega)) (only_pure _)

end Header

section Payload
variable {m : Bytes} {mac : Mac} {net : Net} {sock : Word}

theorem only_storeLoop (n i : Nat) (s : Socket) : (storeLoop n i s).Only m (· < 54 + i + n) := by
  induction n generalizing i s with
  | zero => exact only_pure _
  | succ n ih =>
    have hi (s : Socket) : (storeLoop n (i + 1) s).Only m (· < 54 + i + (n + 1)) :=
      (ih (i + 1) s).mono (fun o ho => by omega)
    unfold storeLoop
    split
    · exact only_bind (only_cell (by omega)) (hi _)
    · exact hi s

/-- One past the last byte that the data branch may read. -/
def dataEnd (fr : Frame) : Nat := if datalen fr = 0 then 48 else 54 + (datalen fr).toNat

theorem le_dataEnd (fr : Frame) : 48 ≤ dataEnd fr := by
  unfold dataEnd
  split <;> omega

theorem only_handleData : (handleData mac net sock).Only m (· < dataEnd (frame m)) := by
  have hle := le_dataEnd (frame m)
  refine only_bind ((only_half (by omega)).mono fun o ho => Nat.lt_of_lt_of_le ho hle) ?_
  show Only m _ (if 0#32 < datalen (frame m) then _ else _)
  split
  · next hpos =>
    have hend : dataEnd (frame m) = 54 + 0 + (datalen (frame m)).toNat := by
      rw [dataEnd, if_neg]
      intro h0
      rw [h0] at hpos
      exact absurd hpos (by decide)
    refine only_bind ?_ (only_bind (only_word (by omega)) (only_bind (only_word (by omega))
      (only_pure _)))
    rw [hend]
    exact only_storeLoop _ 0 _
  · exact only_pure _

/-- Reads of the header stay below the end of the data branch. -/
theorem Only.header {α : Type} {x : Reading α} {n : Nat} (h : x.Only m (· < 48)) (hn : 48 ≤ n) :
    x.Only m (· < n) :=
  h.mono fun _ ho => Nat.lt_of_lt_of_le ho hn

/-- One past the last byte that may be read of a segment; `data` if its payload is stored. -/
def segmentEnd (data : Bool) (fr : Frame) : Nat := if data then dataEnd fr else 48

theorem le_segmentEnd (data : Bool) (fr : Frame) : 48 ≤ segmentEnd data fr := by
  unfold segmentEnd
  split
  · exact le_dataEnd fr
  · exact le_rfl

theorem only_handleSocket : (handleSocket mac net sock).Only m
    (· < segmentEnd (takesData (frame m).tcp.opts (net.heap sock).state) (frame m)) := by
  have hle := le_segmentEnd (takesData (frame m).tcp.opts (net.heap sock).state) (frame m)
  refine only_bind (Only.header (only_cell (by omega)) hle) ?_
  show Only m _ (if (frame m).tcp.opts.syn && (frame m).tcp.opts.ack then _
    else if closes (frame m).tcp.opts (net.heap sock).state then _
    else if (frame m).tcp.opts.ack && (net.heap sock).state == FIN_WAIT1 then _
    else if (frame m).tcp.opts.fin && (net.heap sock).state == CONNECTED then _
    else if (frame m).tcp.opts.ack then _ else _)
  split_ifs with hsyn hclose hwait hfin hack
  · exact only_bind (Only.header only_sendAck hle) (only_pure _)
  · exact Only.header only_handleClosing hle
  · exact only_pure _
  · exact only_bind (Only.header only_handleFin hle) (only_pure _)
  · have htakes : takesData (frame m).tcp.opts (net.heap sock).state := by
      simp only [Bool.not_eq_true] at hsyn hclose hwait hfin
      rw [hack, Bool.and_true] at hsyn
      rw [hack, Bool.true_and] at hwait
      rw [takesData, hack, hsyn, hclose, hwait, hfin]
      rfl
    rw [htakes]
    exact only_bind only_handleData (only_pure _)
  · exact only_pure _

theorem only_demultiplex :
    (demultiplex mac net).Only m (· < segmentEnd (reachesData net (frame m)) (frame m)) := by
  have hle := le_segmentEnd (reachesData net (frame m)) (frame m)
  refine only_bind (only_find fun s => ?_) ?_
  · exact only_bind (Only.header (only_half (by omega)) hle) (only_pure _)
  · rw [value_find]
    simp only [value_portTest]
    cases hf : net.find (Network.portTest net (frame m)) with
    | none => exact only_pure _
    | some s =>
      show Only m _ (handleFound mac net s)
      unfold handleFound
      split
      · next hs =>
        have hreach : reachesData net (frame m) =
            takesData (frame m).tcp.opts (net.heap s).state := by
          simp only [reachesData, hf, decide_eq_true hs, Bool.true_and]
        rw [hreach]
        exact only_handleSocket
      · refine only_bind (Only.header (only_cell (by omega)) hle) ?_
        split
        · exact only_bind (Only.header only_rejectSyn hle) (only_pure _)
        · exact only_pure _

theorem only_tcpHandleFrame :
    (tcpHandleFrame mac net).Only m (· < segmentEnd (delivers net (frame m)) (frame m)) := by
  refine only_bind (Only.header only_handleReset (le_segmentEnd _ _)) ?_
  rw [value_handleReset]
  unfold delivers
  cases Network.handleReset net (frame m) with
  | none => exact only_pure _
  | some net1 => exact only_demultiplex

theorem flags_read {P : Nat → Prop} (h : (tcpHandleFrame mac net).Only m P) : P 47 :=
  only_cell_iff.mp (only_bind_iff.mp (only_bind_iff.mp h).1).1

end Payload

section Frames
variable {m : Bytes} {mac : Mac} {net : Net} {len : Nat}

/-- A length of at least 40 is the length of the headers and of the payload. -/
theorem datalen_toNat (fr : Frame) (h : 40 ≤ total fr) : (datalen fr).toNat + 40 = total fr := by
  unfold total datalen at *
  generalize htons (fr.ip.length.setWidth 32) = t at *
  bv_omega

theorem only_ethernet_iff : (ethernetHandleFrame mac net).Only m (· < len) ↔
    14 ≤ len ∧ (IsArp m → 42 ≤ len) ∧
      (IsIpv4 m → (ipv4HandleFrame mac net).Only m (· < len)) := by
  have htype : ethertype.Only m (· < len) ↔ 14 ≤ len := by
    refine ⟨fun h => ?_, fun h => only_half h⟩
    have h13 := only_cell_iff.mp (only_bind_iff.mp (only_bind_iff.mp h).2).1
    omega
  unfold ethernetHandleFrame
  rw [only_bind_iff, htype]
  refine and_congr_right fun _ => ?_
  show Only m _ (if htons ((frame m).eth.ethertype.setWidth 32) = IPV4 then _
    else if htons ((frame m).eth.ethertype.setWidth 32) = ARP then _ else _) ↔ _
  unfold IsArp IsIpv4
  split_ifs with hip harp
  · have hne : ¬ IPV4 = ARP := by decide
    rw [only_bind_iff, hip]
    exact ⟨fun h => ⟨fun hc => absurd hc hne, fun _ => h.1⟩, fun h => ⟨h.2 rfl, only_pure _⟩⟩
  · rw [only_bind_iff, arpHandleFrame, only_copyFrom_iff]
    exact ⟨fun h => ⟨fun _ => h.1, fun hc => absurd hc hip⟩, fun h => ⟨h.1 harp, only_pure _⟩⟩
  · exact ⟨fun _ => ⟨fun hc => absurd hc harp, fun hc => absurd hc hip⟩, fun _ => only_pure _⟩

theorem only_ipv4_iff : (ipv4HandleFrame mac net).Only m (· < len) ↔
    24 ≤ len ∧ ((frame m).ip.protocol = TCP_PROTOCOL_NUMBER →
      (tcpHandleFrame mac net).Only m (· < len)) := by
  unfold ipv4HandleFrame
  rw [only_bind_iff, protocol, only_cell_iff]
  refine and_congr_right fun _ => ?_
  show Only m _ (if (frame m).ip.protocol = TCP_PROTOCOL_NUMBER then _ else _) ↔ _
  split_ifs with htcp
  · exact ⟨fun h _ => h, fun h => h htcp⟩
  · exact ⟨fun _ hc => absurd hc htcp, fun _ => only_pure _⟩

/-- Where payload is announced truly, the end of the frame is behind all that is read. -/
theorem segmentEnd_le (h : Fits net m len) (htcp : IsTcp m) :
    segmentEnd (delivers net (frame m)) (frame m) ≤ len := by
  have h48 := h.tcp htcp
  unfold segmentEnd dataEnd
  split_ifs with hd h0
  · exact h48
  · have hp := h.payload htcp hd
    have ht := datalen_toNat (frame m) (by omega)
    have hne : (datalen (frame m)).toNat ≠ 0 := fun hc => h0 (BitVec.eq_of_toNat_eq hc)
    omega
  · exact h48

/-- Nothing outside the frame is read, and no payload is made up, exactly for frames that
hold what they announce. -/
theorem frame_in_bounds_iff (mac : Mac) (net : Net) (m : Bytes) (len : Nat) :
    InBounds mac net m len ↔ Fits net m len := by
  refine ⟨fun h => ?_, fun h => ?_⟩
  · obtain ⟨heth, harp, hip⟩ := only_ethernet_iff.mp h.reads
    have htcp : IsTcp m → 48 ≤ len := fun ht =>
      flags_read ((only_ipv4_iff.mp (hip ht.1)).2 ht.2)
    refine ⟨heth, harp, fun hi => (only_ipv4_iff.mp (hip hi)).1, htcp, fun ht hd => ?_⟩
    have hp := h.payload ht hd
    omega
  · refine ⟨only_ethernet_iff.mpr ⟨h.ethernet, h.arp, fun hi => ?_⟩, fun ht hd => ?_⟩
    · refine only_ipv4_iff.mpr ⟨h.ipv4 hi, fun hp => ?_⟩
      exact only_tcpHandleFrame.mono fun o ho => Nat.lt_of_lt_of_le ho (segmentEnd_le h ⟨hi, hp⟩)
    · have hp := h.payload ht hd
      have heq := datalen_toNat (frame m) (by omega)
      exact ⟨heq, by omega⟩

end Frames

/-- An ACK for local port 5 whose IPv4 header claims the given length; the rest is zero. -/
def ackBytes (length : Byte) : Bytes := fun o =>
  if o = 12 then 0x08 else if o = 14 then 0x45 else if o = 17 then length
  else if o = 23 then 6 else if o = 36 then 5 else if o = 46 then 0x50
  else if o = 47 then 0x10 else 0

/-- In a frame of 64 bytes, an IPv4 length of 52 has bytes read behind the end, and a
length of 20 becomes a payload of 4294967276 bytes. -/
theorem length_field_overruns_frame :
    (∃ o ∈ (ethernetHandleFrame (Vector.replicate 6 0) Isolation.twoSockets).log (ackBytes 52),
      64 ≤ o) ∧
    (datalen (frame (ackBytes 20))).toNat = 4294967276 ∧
    ¬ ∀ (mac : Mac) (net : Net) (m : Bytes) (len : Nat), InBounds mac net m len := by
  have hlog : 65 ∈ (ethernetHandleFrame (Vector.replicate 6 0) Isolation.twoSockets).log
      (ackBytes 52) := by decide
  refine ⟨⟨65, hlog, by omega⟩, by decide, fun h => ?_⟩
  have hlt := (h (Vector.replicate 6 0) Isolation.twoSockets (ackBytes 52) 64).reads 65 hlog
  omega

end TapiOS.Network.FrameReads
