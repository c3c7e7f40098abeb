import TapiOS.Network.RcvBuffer

/-!
# The received byte stream

A peer sends the bytes `stream 0, stream 1, ...` in segments, starting at sequence
number `first`. The segments reach `tcp_handle_frame` in any order, any number of
times; the application reads in between. The code looks neither at the sequence
number nor at the data offset of a segment, so what it stores and acknowledges is the
stream only when the segments come in order, without options, and fit the buffer.
-/
namespace TapiOS.Network.Stream

open Lib Util Network Network.RcvBuffer
open BitVec (ofNat)

variable {net : Net} {fr : Frame} {start len : Nat} {out : List TcpPacket}

/-- The peer: its bytes and the sequence number of the first one in host order. -/
structure Peer where
  stream : Nat → Byte
  first : Word

/-- A data segment with the `len` bytes of the stream from `start` on. -/
structure Carries (peer : Peer) (port : Half) (fr : Frame) (start len : Nat) : Prop where
  ack : fr.tcp.opts.ack
  syn : fr.tcp.opts.syn = false
  rst : fr.tcp.opts.rst = false
  fin : fr.tcp.opts.fin = false
  portDst : fr.tcp.portDst = port
  seqNo : htonl fr.tcp.seqNo = peer.first + ofNat 32 start
  offset : 5 ≤ fr.tcp.opts.offset.toNat
  length : (htons (fr.ip.length.setWidth 32)).toNat = 20 + 4 * fr.tcp.opts.offset.toNat + len
  payload : ∀ i < len, fr.data (ofNat 32 (4 * fr.tcp.opts.offset.toNat - 20 + i)) =
    peer.stream (start + i)

/-- The kernel with the bytes stored through the socket at `s` so far. -/
structure Conn where
  net : Net
  stored : List Byte

variable {c t : Conn}

/-- A segment from the peer, or a read by the application. -/
inductive Event where
  | segment (fr : Frame) (start len : Nat)
  | read (count : Word)

/-- The step of a connection on the socket at `s`. It outputs the packets sent; the
bytes stored are those between the old and the new `pos`. -/
def step (mac : Mac) (s : Word) (c : Conn) : Event → Except Unit (List TcpPacket × Conn)
  | .segment fr _ _ =>
    match tcpHandleFrame mac c.net fr with
    | none => .error ()
    | some net =>
      let pos := (c.net.heap s).pos
      let n := (net.heap s).pos.toNat - pos.toNat
      .ok (net.sent.take (net.sent.length - c.net.sent.length),
        ⟨net, c.stored ++ bytesAt (net.heap s).buf pos n⟩)
  | .read count =>
    .ok ([], { c with net := c.net.modify s (fun sock => (socketRead sock count).2) })

/-- The socket at `s` is connected and the one `tcp_handle_frame` finds for its port. -/
structure Established (net : Net) (s : Word) (port : Half) : Prop where
  ne_zero : s ≠ 0
  connected : (net.heap s).state = CONNECTED
  found : net.find (fun a => (net.heap a).srcPort == port) = some s
  in_bounds : (net.heap s).pos.toNat ≤ TCP_RCVBUF_SIZE.toNat

/-- What is stored is the beginning of the stream. -/
def IsStream (peer : Peer) (stored : List Byte) : Prop :=
  stored = (List.range stored.length).map peer.stream

/-- The segment is the next one, has no options, and fits. -/
def InOrder (s : Word) (c : Conn) : Event → Prop
  | .segment fr start len => fr.tcp.opts.offset = 5 ∧
      (len = 0 ∨ start = c.stored.length ∧ len ≤ room (c.net.heap s))
  | .read _ => True

/-- The segments of the run are the peer's. -/
def FromPeer (peer : Peer) (port : Half) : Event → Prop
  | .segment fr start len => Carries peer port fr start len
  | .read _ => True

section Steps
variable {mac : Mac} {s : Word} {port : Half} {peer : Peer}

theorem established_of_same {net' : Net} (he : Established net s port)
    (hopen : net'.openSockets = net.openSockets)
    (hheap : ∀ a, (net'.heap a).next = (net.heap a).next ∧
      (net'.heap a).srcPort = (net.heap a).srcPort)
    (hstate : (net'.heap s).state = (net.heap s).state)
    (hpos : (net'.heap s).pos.toNat ≤ TCP_RCVBUF_SIZE.toNat) : Established net' s port := by
  refine ⟨he.ne_zero, hstate.trans he.connected, ?_, hpos⟩
  rw [Net.find, hopen, ← he.found]
  exact findAlong_congr (fun a => by rw [nextSocket, nextSocket, (hheap a).1])
    (fun a => by rw [(hheap a).2]) _ _

theorem datalen_eq (hc : Carries peer port fr start len) :
    (datalen fr).toNat = 4 * fr.tcp.opts.offset.toNat - 20 + len := by
  have h := hc.length
  have ho := hc.offset
  unfold datalen
  bv_omega

theorem tcpHandleFrame_data (he : Established net s port) (hc : Carries peer port fr start len) :
    tcpHandleFrame mac net fr = some (handleData mac net s fr) := by
  have hfind : net.find (portTest net fr) = some s := by
    rw [← he.found, ← hc.portDst]
    rfl
  simp only [tcpHandleFrame, demultiplex, handleReset, hc.rst, Bool.false_eq_true, ↓reduceIte, hfind, ne_eq,
    he.ne_zero, not_false_eq_true, handleSocket, hc.syn, hc.ack, hc.fin, Bool.false_and, closes,
    he.connected, Bool.true_and, Bool.or_false, Bool.false_or]
  rfl

theorem handleData_spec (fr : Frame) (hpos : (net.heap s).pos.toNat ≤ TCP_RCVBUF_SIZE.toNat)
    (hd : 0 < (datalen fr).toNat) : ∃ buf pos p, ((handleData mac net s fr).heap s) =
        { net.heap s with buf := buf, pos := pos, seqNo := fr.tcp.ackNo,
                          ackNo := htonl (htonl fr.tcp.seqNo + datalen fr) } ∧
      (∀ a, a ≠ s → (handleData mac net s fr).heap a = net.heap a) ∧
      (handleData mac net s fr).openSockets = net.openSockets ∧
      (handleData mac net s fr).sent = p :: net.sent ∧
      p.tcp.ackNo = htonl (htonl fr.tcp.seqNo + datalen fr) ∧
      pos.toNat = (net.heap s).pos.toNat + min (datalen fr).toNat (room (net.heap s)) ∧
      bytesAt buf (net.heap s).pos (pos.toNat - (net.heap s).pos.toNat) =
        (bytesAt fr.data 0#32 (datalen fr).toNat).take (room (net.heap s)) := by
  obtain ⟨buf, pos, hloop, hp, hw⟩ :=
    storeLoop_spec fr.data (datalen fr).toNat 0#32 (net.heap s) hpos
  have hlt : 0#32 < datalen fr := hd
  have hsent : ∃ p, (handleData mac net s fr).sent = p :: net.sent ∧
      p.tcp.ackNo = htonl (htonl fr.tcp.seqNo + datalen fr) := by
    simp only [handleData, hlt, ↓reduceIte]
    obtain ⟨p, hp, hack, -⟩ := send_sent mac _ s _ _ ackOpts
    exact ⟨p, hp, hack⟩
  obtain ⟨p, hsent, hack⟩ := hsent
  refine ⟨buf, pos, p, ?_, ?_, ?_, hsent, hack, hp, ?_⟩
  · simp [handleData, hlt, hloop]
  · intro a ha
    simp [handleData, hlt, modify_heap_other _ _ _ _ ha]
  · simp [handleData, hlt, ↓reduceIte, send_openSockets]
  · have ha := bytesAt_add buf 0#32 (net.heap s).pos.toNat
      (pos.toNat - (net.heap s).pos.toNat)
    have hle : (net.heap s).pos.toNat ≤ pos.toNat := by omega
    rw [Nat.add_sub_cancel' hle] at ha
    simp only [BitVec.zero_add, BitVec.ofNat_toNat, BitVec.setWidth_eq] at ha
    simp only [waiting, ha] at hw
    exact (List.append_inj hw (by simp)).2

theorem handleData_none (hd : (datalen fr).toNat = 0) : handleData mac net s fr = net := by
  have hn : ¬ 0#32 < datalen fr := by bv_omega
  simp [handleData, hn]

/-- The invariant of a connection: it stays established and has stored a beginning
of the stream. -/
structure Good (peer : Peer) (port : Half) (s : Word) (c : Conn) : Prop where
  established : Established c.net s port
  stream : IsStream peer c.stored

theorem isStream_append {stored : List Byte} (hs : IsStream peer stored)
    (hp : ∀ i < len, fr.data (ofNat 32 i) = peer.stream (stored.length + i)) :
    IsStream peer (stored ++ bytesAt fr.data 0#32 len) := by
  have hb : bytesAt fr.data 0#32 len =
      (List.range len).map (fun i => peer.stream (stored.length + i)) := by
    apply List.map_congr_left
    intro i hi
    rw [BitVec.zero_add]
    exact hp i (List.mem_range.mp hi)
  unfold IsStream
  rw [List.length_append, bytesAt_length, List.range_add, List.map_append, List.map_map, hb, ← hs]
  rfl

theorem step_segment (hg : Good peer port s c) (hc : Carries peer port fr start len)
    (ho : InOrder s c (.segment fr start len))
    (h : step mac s c (.segment fr start len) = .ok (out, t)) : Good peer port s t ∧
      ∀ p ∈ out, htonl p.tcp.ackNo = peer.first + ofNat 32 t.stored.length := by
  obtain ⟨hoff, hord⟩ := ho
  have hlen : (datalen fr).toNat = len := by
    rw [datalen_eq hc, hoff]
    simp
  simp only [step, tcpHandleFrame_data hg.established hc] at h
  cases h
  by_cases h0 : len = 0
  · rw [handleData_none (by omega)]
    refine ⟨⟨hg.established, ?_⟩, ?_⟩
    · simpa [bytesAt] using hg.stream
    · simp
  obtain ⟨hstart, hroom⟩ := hord.resolve_left h0
  obtain ⟨buf, pos, p, hheap, hother, hopen, hsent, hack, hpos, hbytes⟩ :=
    handleData_spec fr hg.established.in_bounds (by omega)
  have hin := hg.established.in_bounds
  have hnew : c.stored ++ bytesAt buf (c.net.heap s).pos (pos.toNat - (c.net.heap s).pos.toNat) =
      c.stored ++ bytesAt fr.data 0#32 len := by
    rw [hbytes, hlen, List.take_of_length_le (by simpa using hroom)]
  refine ⟨⟨?_, ?_⟩, ?_⟩
  · refine established_of_same hg.established hopen (fun a => ?_) (by rw [hheap]) ?_
    · by_cases ha : a = s
      · subst ha
        rw [hheap]
        exact ⟨rfl, rfl⟩
      · rw [hother a ha]
        exact ⟨rfl, rfl⟩
    · rw [hheap]
      rw [hpos]
      simp only [room]
      omega
  · simp only [hheap, hnew]
    refine isStream_append hg.stream (fun i hi => ?_)
    have hp := hc.payload i hi
    rw [hoff, hstart] at hp
    simpa using hp
  · intro q hq
    simp only [hsent, List.length_cons, Nat.add_sub_cancel_left, List.take_succ_cons, List.take_zero,
      List.mem_singleton] at hq
    subst hq
    simp only [hheap, hnew, List.length_append, bytesAt_length]
    have hd : datalen fr = ofNat 32 len := by
      apply BitVec.eq_of_toNat_eq
      rw [hlen, BitVec.toNat_ofNat, Nat.mod_eq_of_lt]
      omega
    rw [hack, htonl_htonl, hc.seqNo, hd, hstart, BitVec.ofNat_add, BitVec.add_assoc]

theorem step_read {count : Word} (hg : Good peer port s c)
    (h : step mac s c (.read count) = .ok (out, t)) : Good peer port s t ∧
      ∀ p ∈ out, htonl p.tcp.ackNo = peer.first + ofNat 32 t.stored.length := by
  cases h
  refine ⟨⟨?_, hg.stream⟩, by simp⟩
  have hpos := hg.established.in_bounds
  obtain ⟨buf, pos, hread, hle⟩ := socketRead_frame (c.net.heap s) count
  refine established_of_same hg.established rfl (fun a => ?_) ?_ ?_
  · by_cases ha : a = s
    · subst ha
      rw [modify_heap_same, hread]
      exact ⟨rfl, rfl⟩
    · rw [modify_heap_other _ _ _ _ ha]
      exact ⟨rfl, rfl⟩
  · rw [modify_heap_same, hread]
  · rw [modify_heap_same, hread]
    exact hle.trans hpos

theorem step_good {e : Event} (hg : Good peer port s c) (hf : FromPeer peer port e)
    (ho : InOrder s c e) (h : step mac s c e = .ok (out, t)) : Good peer port s t ∧
      ∀ p ∈ out, htonl p.tcp.ackNo = peer.first + ofNat 32 t.stored.length := by
  cases e with
  | segment fr start len => exact step_segment hg hf ho h
  | read count => exact step_read hg h

end Steps

/-- In every run of the peer's segments and of reads whose segments all come in order,
without options and within the free space, what is stored is a beginning of the stream
and every acknowledgement is for exactly the bytes stored. -/
theorem stream_integrity (mac : Mac) (peer : Peer) (port : Half) (s : Word) (net : Net)
    (he : Established net s port) (events : List Event)
    (hf : ∀ e ∈ events, FromPeer peer port e)
    (tr : List (Transition Conn Event (List TcpPacket)))
    (hr : run (step mac s) ⟨net, []⟩ events = some tr)
    (ho : ∀ x ∈ tr, InOrder s x.pre x.input) :
    ∀ x ∈ tr, IsStream peer x.post.stored ∧
      ∀ p ∈ x.output, htonl p.tcp.ackNo = peer.first + ofNat 32 x.post.stored.length := by
  have hc : ∀ x ∈ tr, FromPeer peer port x.input ∧ InOrder s x.pre x.input :=
    fun x hx => ⟨hf _ (run_input hr x hx), ho x hx⟩
  have hinv := run_invariant (I := Good peer port s)
    (C := fun c e => FromPeer peer port e ∧ InOrder s c e)
    (fun c e o t hg hC h => (step_good hg hC.1 hC.2 h).1) hr ⟨he, rfl⟩ hc
  intro x hx
  obtain ⟨hg, hack⟩ := step_good (hinv x hx).1 (hc x hx).1 (hc x hx).2 (run_step hr x hx)
  exact ⟨hg.stream, hack⟩

/-- The peer's segment with `len` bytes from `start` on, without options. -/
def plainFrame (peer : Peer) (port : Half) (start len : Nat) : Frame where
  eth := ⟨Vector.replicate 6 0, Vector.replicate 6 0, 0⟩
  ip :=
    { ihl := 5, version := 4, ecn := 0, dscp := 0,
      length := (htons (ofNat 32 (40 + len))).setWidth 16, identification := 0, flags := 0,
      fragmentOffset := 0, ttl := 64, protocol := 6, checksum := 0, srcIp := 0, destIp := 0 }
  tcp :=
    { portSrc := 0, portDst := port, seqNo := htonl (peer.first + ofNat 32 start),
      ackNo := 0, opts := { ack := true, offset := 5 }, windowSize := 0, checksum := 0,
      urgentPtr := 0 }
  data := fun a => peer.stream (start + a.toNat)

theorem plainFrame_carries (peer : Peer) (port : Half) (start len : Nat) (hl : len < 2 ^ 32)
    (hlen : (htons ((plainFrame peer port start len).ip.length.setWidth 32)).toNat = 40 + len) :
    Carries peer port (plainFrame peer port start len) start len := by
  refine ⟨rfl, rfl, rfl, rfl, rfl, htonl_htonl _, Nat.le_refl 5, hlen, ?_⟩
  · intro i hi
    have h20 : 4 * (plainFrame peer port start len).tcp.opts.offset.toNat - 20 + i = i :=
      Nat.zero_add i
    rw [h20]
    change peer.stream (start + (ofNat 32 i).toNat) = _
    rw [toNat_ofNat_of_lt (by omega)]

/-- A peer that counts from one. -/
def countingPeer : Peer := ⟨fun k => ofNat 8 (k + 1), 1000⟩

/-- One connected socket, at address 0x1000 with local port 7. -/
def oneSocket : Net where
  heap := fun a => if a = 0x1000#32 then
      { clearedSocket with refcount := 2, srcPort := 7, state := CONNECTED }
    else clearedSocket
  openSockets := 0x1000
  next := 0
  freed := []
  sent := []

theorem oneSocket_established : Established oneSocket 0x1000 7 :=
  ⟨by decide, rfl, by decide, by decide⟩

private theorem counting_carries (start len : Nat) (hl : len < 2 ^ 32)
    (hlen : (htons ((plainFrame countingPeer 7 start len).ip.length.setWidth 32)).toNat =
      40 + len) : FromPeer countingPeer 7 (.segment (plainFrame countingPeer 7 start len) start len) :=
  plainFrame_carries countingPeer 7 start len hl hlen

instance (s : Word) (c : Conn) (e : Event) : Decidable (InOrder s c e) :=
  match e with
  | .segment _ _ _ => inferInstanceAs (Decidable (_ ∧ (_ ∨ _ ∧ _)))
  | .read _ => inferInstanceAs (Decidable True)

/-- Three bytes, a read of two of them, two more bytes. -/
def inOrderRun : List Event :=
  [.segment (plainFrame countingPeer 7 0 3) 0 3, .read 2,
    .segment (plainFrame countingPeer 7 3 2) 3 2]

theorem stream_integrity_inOrderRun :
    ∃ tr, run (step (Vector.replicate 6 0) 0x1000) ⟨oneSocket, []⟩ inOrderRun = some tr ∧
      (∀ x ∈ tr, InOrder 0x1000 x.pre x.input) ∧
      ∀ x ∈ tr, IsStream countingPeer x.post.stored ∧ ∀ p ∈ x.output,
        htonl p.tcp.ackNo = countingPeer.first + ofNat 32 x.post.stored.length := by
  have hf : ∀ e ∈ inOrderRun, FromPeer countingPeer 7 e := by
    simp only [inOrderRun, List.forall_mem_cons, List.not_mem_nil, false_implies, implies_true,
      and_true]
    exact ⟨counting_carries 0 3 (by decide) (by decide), trivial,
      counting_carries 3 2 (by decide) (by decide)⟩
  exact run_test (fun tr => ∀ x ∈ tr, InOrder 0x1000 x.pre x.input) (by decide)
    fun tr htr hord => ⟨hord, stream_integrity _ countingPeer 7 0x1000 oneSocket
      oneSocket_established inOrderRun hf tr htr hord⟩

/-- A segment that arrives twice is stored twice. -/
theorem duplicate_stored_twice :
    ¬ ∀ (mac : Mac) (peer : Peer) (port : Half) (s : Word) (net : Net),
      Established net s port → ∀ events : List Event, (∀ e ∈ events, FromPeer peer port e) →
      ∀ tr, run (step mac s) ⟨net, []⟩ events = some tr →
      ∀ x ∈ tr, IsStream peer x.post.stored ∧ ∀ p ∈ x.output,
        htonl p.tcp.ackNo = peer.first + ofNat 32 x.post.stored.length := by
  intro h
  obtain ⟨tr, htr, x, hx, he⟩ : ∃ tr ∈ run (step (Vector.replicate 6 0) 0x1000) ⟨oneSocket, []⟩
      (List.replicate 2 (.segment (plainFrame countingPeer 7 0 1) 0 1)),
      ∃ x ∈ tr, x.post.stored = [1, 1] := by decide
  have hs := (h _ countingPeer 7 0x1000 oneSocket oneSocket_established _
    (fun e hm => by
      rw [List.eq_of_mem_replicate hm]
      exact counting_carries 0 1 (by decide) (by decide))
    tr htr x hx).1
  rw [he] at hs
  exact absurd hs (by unfold IsStream; decide)

end TapiOS.Network.Stream
