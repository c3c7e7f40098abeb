import TapiOS.Network.SocketList

/-!
# Which sockets a segment can touch

`tcp_handle_frame` finds a socket by its local port alone and `tcp_remove_connection`
by local port and remote address; removing the first socket of the list drops all
the others. The segments of one remote endpoint leave all other connections alone
exactly for the lists described by `Separated`.
-/
namespace TapiOS.Network.Isolation

open Lib Util Network

variable {p : Word → Bool} {m : Word} {rest : List Word}

/-- Where a segment comes from and the port it is sent to. -/
structure Addresses where
  srcIp : Word
  portSrc : Half
  portDst : Half

def addresses (fr : Frame) : Addresses :=
  ⟨fr.ip.srcIp, fr.tcp.portSrc, fr.tcp.portDst⟩

/-- Segments with these addresses belong to the connection of the socket. -/
def Belongs (t : Addresses) (sock : Socket) : Prop :=
  t.portDst = sock.srcPort ∧ t.srcIp = sock.saddr.sinAddr ∧ t.portSrc = sock.saddr.sinPort

def ForSocket (fr : Frame) (sock : Socket) : Prop := Belongs (addresses fr) sock

/-- State, numbers and receive buffer are as before and the socket is still listed. -/
structure Undisturbed (net net' : Net) (s : Word) : Prop where
  view : (net'.heap s).view = (net.heap s).view
  listed : Visits 0 (nextSocket net'.heap) net'.openSockets s

/-- One step that can only touch the socket at `v`, perhaps taking it off the list. -/
structure Spared (net net' : Net) (ss ss' : List Word) (v : Word) : Prop where
  listed : Listed net' ss'
  stays : ss' = ss ∨ ss' = ss.erase v
  view : ∀ a, a ≠ v → (net'.heap a).view = (net.heap a).view
  ends : ∀ a, (net'.heap a).ends = (net.heap a).ends
  openSockets : net'.openSockets = net.openSockets

section Steps
variable {mac : Mac} {net net' net1 : Net} {ss ss' ss1 : List Word} {v : Word} {fr : Frame}

theorem spared_of_same (h : Listed net ss) (ho : net'.openSockets = net.openSockets)
    (hn : ∀ a, (net'.heap a).next = (net.heap a).next)
    (he : ∀ a, (net'.heap a).ends = (net.heap a).ends)
    (hv : ∀ a, a ≠ v → (net'.heap a).view = (net.heap a).view) : Spared net net' ss ss v := by
  refine ⟨⟨?_, h.nodup, h.fields⟩, .inl rfl, hv, he, ho⟩
  rw [ho]
  exact chain_congr h.chain (fun s _ => hn s)

theorem spared_refl (h : Listed net ss) (v : Word) : Spared net net ss ss v :=
  spared_of_same h rfl (fun _ => rfl) (fun _ => rfl) (fun _ _ => rfl)

theorem spared_modify (h : Listed net ss) (f : Socket → Socket)
    (hn : (f (net.heap v)).next = (net.heap v).next)
    (he : (f (net.heap v)).ends = (net.heap v).ends) : Spared net (net.modify v f) ss ss v := by
  refine spared_of_same h rfl (fun a => ?_) (fun a => ?_) (fun a ha => ?_)
  · by_cases ha : a = v
    · rw [ha, modify_heap_same, hn]
    · rw [modify_heap_other _ _ _ _ ha]
  · by_cases ha : a = v
    · rw [ha, modify_heap_same, he]
    · rw [modify_heap_other _ _ _ _ ha]
  · rw [modify_heap_other _ _ _ _ ha]

theorem Spared.trans (h1 : Spared net net1 ss ss1 v) (h2 : Spared net1 net' ss1 ss' v)
    (hd : ss.Nodup) : Spared net net' ss ss' v := by
  have hee : (ss.erase v).erase v = ss.erase v := List.erase_of_not_mem hd.not_mem_erase
  refine ⟨h2.listed, ?_, fun a ha => (h2.view a ha).trans (h1.view a ha),
    fun a => (h2.ends a).trans (h1.ends a), h2.openSockets.trans h1.openSockets⟩
  rcases h1.stays with rfl | rfl
  · exact h2.stays
  · exact .inr (h2.stays.elim id (fun he => he.trans hee))

theorem socketFree_spared (h : Listed net ss) : Spared net (socketFree net v) ss ss v := by
  have hs := spared_modify (v := v) h (fun sock => { sock with refcount := sock.refcount - 1 })
    rfl rfl
  unfold socketFree
  dsimp only
  split_ifs
  all_goals exact ⟨⟨hs.listed.chain, hs.listed.nodup, hs.listed.fields⟩, .inl rfl, hs.view, hs.ends, rfl⟩

variable (mac) in
theorem tcpSendPacket_spared (h : Listed net ss) (seqNo ackNo : Word) (opts : TcpOpts) :
    Spared net (tcpSendPacket mac net v seqNo ackNo opts) ss ss v := by
  have hs := spared_modify (v := v) h
    (fun sock => { sock with seqNo := seqNo, ackNo := ackNo }) rfl rfl
  refine spared_of_same h (send_openSockets ..) (fun a => ?_) (fun a => ?_) (fun a ha => ?_)
  · rw [send_heap]
    by_cases ha : a = v
    · rw [ha, modify_heap_same]
    · rw [modify_heap_other _ _ _ _ ha]
  · rw [send_heap, hs.ends a]
  · rw [send_heap, hs.view a ha]

theorem storeLoop_ends (dp : Mem) (n : Nat) (i : Word) (s : Socket) :
    (storeLoop dp n i s).ends = s.ends ∧ (storeLoop dp n i s).next = s.next := by
  induction n generalizing i s with
  | zero => exact ⟨rfl, rfl⟩
  | succ n ih =>
    rw [storeLoop, (ih _ _).1, (ih _ _).2]
    split_ifs <;> exact ⟨rfl, rfl⟩

/-- The first socket on the port, when it is also on the remote address, is the one
tcp_remove_connection finds. -/
theorem find_removeTest (hp : ss.find? (portTest net fr) = some v)
    (hf : ForSocket fr (net.heap v)) : ss.find? (removeTest net fr) = some v := by
  obtain ⟨hpv, xs, ys, rfl, hxs⟩ := List.find?_eq_some_iff_append.mp hp
  refine List.find?_eq_some_iff_append.mpr ⟨?_, xs, ys, rfl, fun a ha => ?_⟩
  · have h1 : fr.tcp.portDst = (net.heap v).srcPort := hf.1
    have h2 : fr.ip.srcIp = (net.heap v).saddr.sinAddr := hf.2.1
    simp [removeTest, h1, h2]
  · have h := hxs a ha
    simp only [portTest, Bool.not_eq_eq_eq_not, Bool.not_true] at h
    simp [removeTest, h]

theorem find_removeTest_none (hp : ss.find? (portTest net fr) = none) :
    ss.find? (removeTest net fr) = none := by
  rw [List.find?_eq_none] at hp ⊢
  intro a ha
  have h := hp a ha
  simp only [portTest, Bool.not_eq_true] at h
  simp [removeTest, h]

theorem portTest_congr (he : ∀ a, (net'.heap a).ends = (net.heap a).ends) :
    portTest net' fr = portTest net fr := by
  funext a
  have h : (net'.heap a).srcPort = (net.heap a).srcPort := congrArg Prod.fst (he a)
  rw [portTest, portTest, h]

theorem belongs_congr {t : Addresses} (he : (net'.heap v).ends = (net.heap v).ends) :
    Belongs t (net'.heap v) ↔ Belongs t (net.heap v) := by
  have h1 : (net'.heap v).srcPort = (net.heap v).srcPort := congrArg Prod.fst he
  have h2 : (net'.heap v).saddr = (net.heap v).saddr := congrArg Prod.snd he
  rw [Belongs, Belongs, h1, h2]

section Found
variable (h : Listed net ss) (hp : ss.find? (portTest net fr) = some v)
  (hf : ForSocket fr (net.heap v)) (hh : net.openSockets ≠ v)
include h hp hf hh

/-- A removal of the first socket on the port, which is not the first of the list. -/
theorem remove_spared :
    ∃ net', tcpRemoveConnection net fr = some (v, net') ∧
      Spared net net' ss (ss.erase v) v := by
  obtain ⟨net', hr, hl, hview, hends, hopen, -⟩ :=
    tcpRemoveConnection_spec h (find_removeTest hp hf) hh
  exact ⟨net', hr, hl, .inr rfl, hview, hends, hopen⟩

theorem handleReset_spared (hrst : fr.tcp.opts.rst) :
    ∃ net', handleReset net fr = some net' ∧ Spared net net' ss (ss.erase v) v := by
  have hv0 := h.chain.ne_null v (List.mem_of_find?_eq_some hp)
  obtain ⟨net1, hr, hs⟩ := remove_spared h hp hf hh
  refine ⟨socketFree net1 v, ?_, hs.trans (socketFree_spared hs.listed) h.nodup⟩
  simp only [handleReset, hrst, ↓reduceIte, hr, hv0]

/-- The branches for a socket that the segment belongs to touch no other socket. -/
theorem handleSocket_spared :
    ∃ net' ss', handleSocket mac net v fr = some net' ∧ Spared net net' ss ss' v := by
  have hv0 := h.chain.ne_null v (List.mem_of_find?_eq_some hp)
  simp only [handleSocket]
  split_ifs
  · have hs := tcpSendPacket_spared mac (v := v) h fr.tcp.ackNo
      (fr.tcp.seqNo + htonl 1) ackOpts
    exact ⟨_, ss, rfl, hs.trans (spared_modify hs.listed _ rfl rfl) h.nodup⟩
  · -- closing: the acknowledgement leaves the list and the ends as they are
    have hs : Spared net (if (net.heap v).state ≠ LAST_ACK then
        tcpSendPacket mac net v fr.tcp.ackNo (fr.tcp.seqNo + htonl 1) ackOpts else net) ss ss v := by
      split_ifs
      · exact tcpSendPacket_spared mac h _ _ _
      · exact spared_refl h v
    obtain ⟨net1, hr, hs1⟩ := remove_spared hs.listed (by rw [portTest_congr hs.ends]; exact hp)
      ((belongs_congr (hs.ends v)).mpr hf) (by rw [hs.openSockets]; exact hh)
    have hs2 := spared_modify (v := v) hs1.listed (fun t => { t with state := DISCONNECTED }) rfl rfl
    have hs3 := socketFree_spared (v := v) hs2.listed
    refine ⟨_, ss.erase v, ?_, (hs.trans hs1 h.nodup).trans (hs2.trans hs3 hs1.listed.nodup) h.nodup⟩
    simp only [handleClosing, hr, hv0, ↓reduceIte]
  · exact ⟨_, ss, rfl, spared_modify h _ rfl rfl⟩
  · have hs := tcpSendPacket_spared mac (v := v) h (net.heap v).seqNo
      (if fr.tcp.opts.ack then htonl (htonl (net.heap v).ackNo + 1) else (net.heap v).ackNo)
      { fin := true, ack := fr.tcp.opts.ack }
    have hs1 := spared_modify (v := v) hs.listed (fun t => { t with state := LAST_ACK }) rfl rfl
    exact ⟨_, ss, rfl, hs.trans hs1 h.nodup⟩
  · refine ⟨_, ss, rfl, ?_⟩
    unfold handleData
    split_ifs
    · have hs := spared_modify (v := v) h (fun s => storeLoop fr.data (datalen fr).toNat 0#32 s)
        (storeLoop_ends ..).2 (storeLoop_ends ..).1
      have hs1 := spared_modify (v := v) hs.listed (fun s => { s with
        seqNo := fr.tcp.ackNo, ackNo := htonl (htonl fr.tcp.seqNo + datalen fr) }) rfl rfl
      exact (hs.trans hs1 h.nodup).trans (tcpSendPacket_spared mac hs1.listed _ _ _) h.nodup
    · exact spared_refl h v
  · exact ⟨net, ss, rfl, spared_refl h v⟩

end Found

theorem handleReset_idle (hrst : fr.tcp.opts.rst = false) : handleReset net fr = some net := by
  simp [handleReset, hrst]

variable (mac) in
/-- The branches after the RST part disturb only the first socket on the port. -/
theorem demultiplex_spares (h : Listed net ss)
    (hm : ∀ m, ss.find? (portTest net fr) = some m →
      ForSocket fr (net.heap m) ∧ net.openSockets ≠ m) :
    ∃ net', demultiplex mac net fr = some net' ∧
      ∀ s ∈ ss, ss.find? (portTest net fr) ≠ some s → Undisturbed net net' s := by
  have hfind := h.find (portTest net fr)
  cases hp : ss.find? (portTest net fr) with
  | none =>
    rw [hp, Option.getD_none] at hfind
    simp only [demultiplex, hfind, ne_eq, not_true_eq_false, ↓reduceIte]
    split_ifs
    · refine ⟨rejectSyn mac net fr, rfl, fun s hs _ => ⟨?_, ?_⟩⟩
      · rw [rejectSyn, transmit_heap]
      · rw [rejectSyn, transmit_heap, transmit_openSockets]
        exact h.chain.visits s hs
    · exact ⟨net, rfl, fun s hs _ => ⟨rfl, h.chain.visits s hs⟩⟩
  | some m =>
    have hm0 := h.chain.ne_null m (List.mem_of_find?_eq_some hp)
    rw [hp, Option.getD_some] at hfind
    obtain ⟨hfor, hopen⟩ := hm m hp
    obtain ⟨net', ss', hr, hs⟩ := handleSocket_spared h hp hfor hopen
    refine ⟨net', by simpa only [demultiplex, hfind, ne_eq, hm0, not_false_eq_true, ↓reduceIte], ?_⟩
    intro s hmem hne
    have hsm : s ≠ m := fun he => hne (by rw [he])
    refine ⟨hs.view s hsm, hs.listed.chain.visits s ?_⟩
    rcases hs.stays with rfl | rfl
    · exact hmem
    · exact (List.mem_erase_of_ne hsm).mpr hmem

theorem filter_of_find (hm : ss.find? p = some m) : ss.filter p = m :: (ss.erase m).filter p := by
  obtain ⟨hpm, xs, ys, rfl, hxs⟩ := List.find?_eq_some_iff_append.mp hm
  have hfx : xs.filter p = [] := List.filter_eq_nil_iff.mpr (fun a ha => by simpa using hxs a ha)
  have hmx : m ∉ xs := fun hin => by
    have := hxs m hin
    simp [hpm] at this
  rw [List.erase_append_right _ hmx, List.erase_cons_head, List.filter_append, List.filter_append,
    hfx, List.filter_cons_of_pos hpm, List.nil_append, List.nil_append]

theorem find_erase {w : Word} (hd : ss.Nodup) (hm : ss.find? p = some m)
    (hw : (ss.erase m).find? p = some w) : w ∈ (ss.filter p).take 2 ∧ w ≠ m := by
  refine ⟨?_, ?_⟩
  · rw [filter_of_find hm, filter_of_find hw]
    simp
  · rintro rfl
    exact hd.not_mem_erase (List.mem_of_find?_eq_some hw)

theorem find_mem_take (hm : ss.find? p = some m) : m ∈ (ss.filter p).take 2 := by
  rw [filter_of_find hm]
  simp

/-- When the first two sockets on the port belong to the sender and the first of the
list is not on the port, the frame is handled and disturbs no other socket. -/
theorem tcpHandleFrame_spares (h : Listed net ss)
    (h2 : ∀ s ∈ (ss.filter (portTest net fr)).take 2, ForSocket fr (net.heap s))
    (hh : ∀ a t, ss = a :: t → portTest net fr a = false) :
    ∃ net', tcpHandleFrame mac net fr = some net' ∧
      ∀ s ∈ ss, ¬ ForSocket fr (net.heap s) → Undisturbed net net' s := by
  have hopen : ∀ m, portTest net fr m → m ∈ ss → net.openSockets ≠ m := by
    rintro m hpm hm rfl
    cases ss with
    | nil => cases hm
    | cons a t =>
      have ha := hh a t rfl
      rw [← h.chain.1, hpm] at ha
      cases ha
  -- before the demultiplexing loop: perhaps the first socket on the port is gone
  have hreset : ∃ net1 ss1, handleReset net fr = some net1 ∧ Listed net1 ss1 ∧
      (∀ m, ss1.find? (portTest net fr) = some m → m ∈ (ss.filter (portTest net fr)).take 2) ∧
      net1.openSockets = net.openSockets ∧ (∀ a, (net1.heap a).ends = (net.heap a).ends) ∧
      (∀ s ∈ ss, ¬ ForSocket fr (net.heap s) →
        s ∈ ss1 ∧ (net1.heap s).view = (net.heap s).view) := by
    by_cases hrst : fr.tcp.opts.rst
    · cases hp : ss.find? (portTest net fr) with
      | none =>
        refine ⟨net, ss, ?_, h, ?_, rfl, fun _ => rfl, fun s hs _ => ⟨hs, rfl⟩⟩
        · simp [handleReset, hrst, tcpRemoveConnection_none h (find_removeTest_none hp)]
        · intro m hm
          rw [hp] at hm
          cases hm
      | some m =>
        have hfor := h2 m (find_mem_take hp)
        obtain ⟨net1, hr, hs⟩ := handleReset_spared h hp hfor
          (hopen m (List.find?_some hp) (List.mem_of_find?_eq_some hp)) hrst
        refine ⟨net1, ss.erase m, hr, hs.listed, ?_, hs.openSockets, hs.ends, ?_⟩
        · intro w hw
          exact (find_erase h.nodup hp hw).1
        · intro s hmem hns
          have hsm : s ≠ m := fun he => hns (he ▸ hfor)
          exact ⟨(List.mem_erase_of_ne hsm).mpr hmem, hs.view s hsm⟩
    · exact ⟨net, ss, handleReset_idle (by simpa using hrst), h, fun m hm => find_mem_take hm, rfl,
        fun _ => rfl, fun s hs _ => ⟨hs, rfl⟩⟩
  obtain ⟨net1, ss1, hr, hl, htake, ho, he, hkeep⟩ := hreset
  obtain ⟨net', hd, hspare⟩ := demultiplex_spares mac hl (fun m hm => by
    rw [portTest_congr he] at hm
    have hmt := htake m hm
    have hmf := List.mem_filter.mp (List.mem_of_mem_take hmt)
    exact ⟨(belongs_congr (he m)).mpr (h2 m hmt), ho ▸ hopen m hmf.2 hmf.1⟩)
  refine ⟨net', by simp only [tcpHandleFrame, hr, hd], ?_⟩
  intro s hs hns
  obtain ⟨hs1, hview⟩ := hkeep s hs hns
  have hund := hspare s hs1 (fun hfound => by
    rw [portTest_congr he] at hfound
    exact hns (h2 s (htake s hfound)))
  exact ⟨hund.view.trans hview, hund.listed⟩

end Steps

/-- Two states with the same list of sockets, linked and addressed alike. -/
structure SameSockets (net net1 : Net) (ss : List Word) : Prop where
  openSockets : net1.openSockets = net.openSockets
  next : ∀ s ∈ ss, (net1.heap s).next = (net.heap s).next
  ends : ∀ s ∈ ss, (net1.heap s).ends = (net.heap s).ends

/-- The first two sockets on the port belong to the sender; and if the first socket of
the list is on the port, all sockets of the list do. -/
def Separated (net : Net) (ss : List Word) (t : Addresses) : Prop :=
  (∀ s ∈ (ss.filter (fun a => (net.heap a).srcPort == t.portDst)).take 2, Belongs t (net.heap s)) ∧
  (∀ a rest, ss = a :: rest → (net.heap a).srcPort = t.portDst →
    ∀ s ∈ ss, Belongs t (net.heap s))

/-- Whatever the sockets hold and whatever the segment carries, a segment with these
addresses disturbs no socket it does not belong to. -/
def Isolated (mac : Mac) (net : Net) (ss : List Word) (t : Addresses) : Prop :=
  ∀ net1 fr net', SameSockets net net1 ss → addresses fr = t →
    tcpHandleFrame mac net1 fr = some net' →
    ∀ s ∈ ss, ¬ ForSocket fr (net1.heap s) → Undisturbed net1 net' s

section Main
variable {mac : Mac} {net net1 : Net} {ss : List Word} {t : Addresses}

section Same
variable (hs : SameSockets net net1 ss)
include hs

theorem SameSockets.listed (h : Listed net ss) : Listed net1 ss :=
  ⟨hs.openSockets ▸ chain_congr h.chain hs.next, h.nodup, h.fields⟩

theorem SameSockets.belongs {s : Word} (hm : s ∈ ss) :
    Belongs t (net1.heap s) ↔ Belongs t (net.heap s) :=
  belongs_congr (hs.ends s hm)

theorem SameSockets.srcPort {s : Word} (hm : s ∈ ss) :
    (net1.heap s).srcPort = (net.heap s).srcPort :=
  congrArg Prod.fst (hs.ends s hm)

theorem SameSockets.filter (fr : Frame) :
    ss.filter (portTest net1 fr) =
      ss.filter (fun a => (net.heap a).srcPort == fr.tcp.portDst) := by
  apply List.filter_congr
  intro a ha
  rw [portTest, hs.srcPort ha]

theorem SameSockets.find (fr : Frame) :
    ss.find? (portTest net1 fr) =
      ss.find? (fun a => (net.heap a).srcPort == fr.tcp.portDst) := by
  rw [← List.head?_filter, hs.filter fr, List.head?_filter]

end Same

theorem isolated_of_separated (h : Listed net ss) (hsep : Separated net ss t) :
    Isolated mac net ss t := by
  intro net1 fr net' hs rfl hr s hm hns
  have hns' : ¬ Belongs (addresses fr) (net.heap s) := fun hb => hns ((hs.belongs hm).mpr hb)
  obtain ⟨net2, hr2, hspare⟩ := tcpHandleFrame_spares (hs.listed h)
    (fun a ha => by
      rw [hs.filter] at ha
      have hmem := (List.mem_filter.mp (List.mem_of_mem_take ha)).1
      exact (hs.belongs hmem).mpr (hsep.1 a ha))
    (fun a rest he => by
      rw [portTest, hs.srcPort (by simp [he]), beq_eq_false_iff_ne]
      exact fun hport => hns' (hsep.2 a rest he hport s hm))
  rw [hr, Option.some.injEq] at hr2
  exact hr2 ▸ hspare s hm hns

/-- A segment without payload. -/
def bareFrame (t : Addresses) (opts : TcpOpts) : Frame where
  eth := ⟨Vector.replicate 6 0, Vector.replicate 6 0, 0⟩
  ip :=
    { ihl := 5, version := 4, ecn := 0, dscp := 0, length := 0x2800, identification := 0,
      flags := 0, fragmentOffset := 0, ttl := 64, protocol := 6, checksum := 0,
      srcIp := t.srcIp, destIp := 0 }
  tcp :=
    { portSrc := t.portSrc, portDst := t.portDst, seqNo := 0, ackNo := 0, opts := opts,
      windowSize := 0, checksum := 0, urgentPtr := 0 }
  data := fun _ => 0

theorem sameSockets_modify (f : Socket → Socket) (v : Word)
    (hf : v ∈ ss → (f (net.heap v)).next = (net.heap v).next ∧
      (f (net.heap v)).ends = (net.heap v).ends) : SameSockets net (net.modify v f) ss := by
  refine ⟨rfl, fun s hm => ?_, fun s hm => ?_⟩
  · by_cases hs : s = v
    · subst hs
      rw [modify_heap_same, (hf hm).1]
    · rw [modify_heap_other _ _ _ _ hs]
  · by_cases hs : s = v
    · subst hs
      rw [modify_heap_same, (hf hm).2]
    · rw [modify_heap_other _ _ _ _ hs]

variable {v : Word}

/-- A bare ACK moves a socket from FIN_WAIT1 to FIN_WAIT2, whoever sent it. -/
theorem handleSocket_finWait {fr : Frame} (hack : fr.tcp.opts.ack)
    (hsyn : fr.tcp.opts.syn = false) (hfin : fr.tcp.opts.fin = false)
    (hst : (net.heap v).state = FIN_WAIT1) :
    handleSocket mac net v fr = some (net.modify v (fun s => { s with state := FIN_WAIT2 })) := by
  simp only [handleSocket, hack, hsyn, hfin, hst, closes, Bool.false_and, Bool.true_and,
    Bool.false_eq_true, ↓reduceIte, Bool.or_false]
  rfl

theorem demultiplex_found {fr : Frame} (h : Listed net ss)
    (hp : ss.find? (portTest net fr) = some v) :
    demultiplex mac net fr = handleSocket mac net v fr := by
  have hv0 := h.chain.ne_null v (List.mem_of_find?_eq_some hp)
  have hfind := h.find (portTest net fr)
  rw [hp, Option.getD_some] at hfind
  simp only [demultiplex, hfind, ne_eq, hv0, not_false_eq_true, ↓reduceIte]

/-- A segment that belongs to another socket does not move `v` out of FIN_WAIT1. -/
theorem belongs_of_finWait {net2 : Net} {ss2 : List Word} (fr : Frame)
    (hi : Isolated mac net ss t) (hs : SameSockets net net1 ss) (ht : addresses fr = t)
    (hack : fr.tcp.opts.ack) (hsyn : fr.tcp.opts.syn = false)
    (hfin : fr.tcp.opts.fin = false) (hm : v ∈ ss) (hst : (net1.heap v).state = FIN_WAIT1)
    (hr : handleReset net1 fr = some net2) (hl : Listed net2 ss2)
    (hp : ss2.find? (portTest net2 fr) = some v) (hst2 : (net2.heap v).state = FIN_WAIT1) :
    Belongs t (net.heap v) := by
  by_contra hn
  have hframe : tcpHandleFrame mac net1 fr =
      some (net2.modify v (fun s => { s with state := FIN_WAIT2 })) := by
    rw [tcpHandleFrame, hr]
    exact (demultiplex_found hl hp).trans (handleSocket_finWait hack hsyn hfin hst2)
  have hund := hi net1 fr _ hs ht hframe v hm (fun hb => hn ((hs.belongs hm).mp (ht ▸ hb)))
  have hview := congrArg Prod.fst hund.view
  simp only [Socket.view, modify_heap_same, hst] at hview
  exact absurd hview (by decide)

/-- The first socket on the port belongs to the sender. -/
theorem belongs_of_first (h : Listed net ss) (hi : Isolated mac net ss t)
    (hv : ss.find? (fun a => (net.heap a).srcPort == t.portDst) = some v) :
    Belongs t (net.heap v) := by
  let net1 := net.modify v (fun s => { s with state := FIN_WAIT1 })
  have hs : SameSockets net net1 ss := sameSockets_modify _ v (fun _ => ⟨rfl, rfl⟩)
  have hst : (net1.heap v).state = FIN_WAIT1 := by simp [net1]
  exact belongs_of_finWait (bareFrame t { ack := true }) hi hs rfl rfl rfl rfl
    (List.mem_of_find?_eq_some hv) hst (handleReset_idle rfl) (hs.listed h) ((hs.find _).trans hv) hst

/-- A reset for the first socket of the list drops all the others: what follows it is
read 52 bytes into the next socket. -/
theorem handleReset_head {a b : Word} (fr : Frame) (h : Listed net (a :: b :: rest))
    (hrst : fr.tcp.opts.rst) (hb : ForSocket fr (net.heap a)) :
    ∃ net', handleReset net fr = some net' ∧ net'.openSockets = b + listOffset ∧
      ∀ c, c ≠ a → net'.heap c = net.heap c := by
  have ha0 : a ≠ 0 := h.chain.2.1
  have htest : removeTest net fr a := by
    have h1 : fr.tcp.portDst = (net.heap a).srcPort := hb.1
    have h2 : fr.ip.srcIp = (net.heap a).saddr.sinAddr := hb.2.1
    simp [removeTest, h1, h2]
  have hremove := tcpRemoveConnection_head h htest
  rw [h.next_eq] at hremove
  have hreset : handleReset net fr = some (socketFree (Net.modify
      { net with openSockets := b + listOffset } a
        (fun s => { s with state := DISCONNECTED })) a) := by
    simp only [handleReset, hrst, ↓reduceIte, hremove, ha0]
  refine ⟨_, hreset, ?_, fun c hc => ?_⟩
  · simp only [socketFree]
    split_ifs <;> rfl
  · simp only [socketFree]
    split_ifs <;> simp [Net.modify, hc]

/-- If the first socket of the list is on the port, all of the list belongs to the sender. -/
theorem belongs_of_head (h : Listed net ss) (hal : ∀ s ∈ ss, s.toNat % 0x1000 = 0)
    (hi : Isolated mac net ss t) {a : Word} (hss : ss = a :: rest)
    (hport : (net.heap a).srcPort = t.portDst) : ∀ s ∈ ss, Belongs t (net.heap s) := by
  have hfirst : Belongs t (net.heap a) := by
    refine belongs_of_first h hi ?_
    rw [hss, List.find?_cons_of_pos (by simpa using hport)]
  subst hss
  cases rest with
  | nil =>
    intro s hs
    rw [List.mem_singleton.mp hs]
    exact hfirst
  | cons b rest =>
    intro s hm
    by_contra hn
    have hapart : ∀ c ∈ a :: b :: rest, c ≠ b + listOffset := by
      intro c hc he
      have h1 := hal c hc
      have h2 := hal b (by simp)
      rw [he, listOffset] at h1
      bv_omega
    -- cleared memory where the broken list goes on
    let net1 := net.modify (b + listOffset)
      (fun _ => { clearedSocket with srcPort := t.portDst + 1 })
    have hs : SameSockets net net1 (a :: b :: rest) :=
      sameSockets_modify _ _ (fun hin => absurd rfl (hapart _ hin))
    let fr := bareFrame t { rst := true }
    obtain ⟨net2, hr, hopen, hother⟩ := handleReset_head fr (hs.listed h) rfl
      ((hs.belongs (by simp)).mpr hfirst)
    have hbog : net2.heap (b + listOffset) =
        { clearedSocket with srcPort := t.portDst + 1 } := by
      rw [hother _ (fun he => hapart a (by simp) he.symm)]
      simp [net1]
    have hb0 : b + listOffset ≠ 0 := by
      have h2 := hal b (by simp)
      simp only [listOffset]
      bv_omega
    have hl2 : Listed net2 [b + listOffset] := by
      refine ⟨⟨hopen, hb0, ?_⟩, by simp, ?_⟩
      · simp [nextSocket, hbog, clearedSocket, Chain]
      · have h2 := hal b (by simp)
        simp only [List.mem_singleton, forall_eq, listOffset]
        bv_omega
    have hfind := hl2.find (portTest net2 fr)
    have htest : portTest net2 fr (b + listOffset) = false := by
      rw [portTest, hbog, beq_eq_false_iff_ne]
      change t.portDst + 1 ≠ t.portDst
      bv_omega
    rw [List.find?_cons_of_neg (by simp [htest])] at hfind
    have hframe : tcpHandleFrame mac net1 fr = some net2 := by
      rw [tcpHandleFrame, hr]
      simp only [demultiplex, hfind]
      rfl
    have hund := hi net1 fr net2 hs rfl hframe s hm (fun hb => hn ((hs.belongs hm).mp hb))
    have hin := hl2.chain.mem_of_visits hund.listed
    exact hapart s hm (List.mem_singleton.mp hin)

/-- The second socket on the port belongs to the sender too. -/
theorem belongs_of_second (h : Listed net ss) (hi : Isolated mac net ss t) {w : Word}
    (hm : ss.find? (fun a => (net.heap a).srcPort == t.portDst) = some m)
    (hw : (ss.erase m).find? (fun a => (net.heap a).srcPort == t.portDst) = some w)
    (hhead : net.openSockets ≠ m) : Belongs t (net.heap w) := by
  have hmw : w ≠ m := (find_erase h.nodup hm hw).2
  have hwm : w ∈ ss := List.mem_of_mem_erase (List.mem_of_find?_eq_some hw)
  have hfirst := belongs_of_first h hi hm
  let net1 := net.modify w (fun s => { s with state := FIN_WAIT1 })
  have hs : SameSockets net net1 ss := sameSockets_modify _ w (fun _ => ⟨rfl, rfl⟩)
  let fr := bareFrame t { rst := true, ack := true }
  obtain ⟨net2, hr, hsp⟩ := handleReset_spared (hs.listed h) ((hs.find fr).trans hm)
    ((hs.belongs (List.mem_of_find?_eq_some hm)).mpr hfirst) (hs.openSockets ▸ hhead) rfl
  have hp : (ss.erase m).find? (portTest net2 fr) = some w := by
    rw [portTest_congr hsp.ends, ← List.head?_filter, List.filter_congr (q := fun a =>
      (net.heap a).srcPort == t.portDst), List.head?_filter, hw]
    intro a ha
    rw [portTest, hs.srcPort (List.mem_of_mem_erase ha)]
    rfl
  have hst1 : (net1.heap w).state = FIN_WAIT1 := by simp [net1]
  have hst2 : (net2.heap w).state = FIN_WAIT1 :=
    (congrArg Prod.fst (hsp.view w hmw)).trans hst1
  exact belongs_of_finWait fr hi hs rfl rfl rfl rfl hwm hst1 hr hsp.listed hp hst2

end Main

/-- The first two elements of a filter are its first hit and the first hit without it. -/
theorem mem_take_filter {ss : List Word} {s : Word} (hs : s ∈ (ss.filter p).take 2) :
    ∃ m, ss.find? p = some m ∧ (s = m ∨ (ss.erase m).find? p = some s) := by
  cases hf : ss.find? p with
  | none =>
    rw [List.filter_eq_nil_iff.mpr (by simpa using List.find?_eq_none.mp hf)] at hs
    simp at hs
  | some m =>
    refine ⟨m, rfl, ?_⟩
    rw [filter_of_find hf, List.take_succ_cons, List.mem_cons] at hs
    rw [← List.head?_filter]
    refine hs.imp id fun hs => ?_
    cases hy : (ss.erase m).filter p with
    | nil => simp [hy] at hs
    | cons b bs =>
      rw [hy] at hs
      have hsb : s = b := by simpa using hs
      rw [hsb, List.head?_cons]

/-- For every list of open sockets and every remote endpoint and local port: segments
with these addresses leave the sockets they do not belong to alone, whatever they carry
and whatever state the sockets are in, exactly when the list is `Separated`. -/
theorem connections_isolated_iff (mac : Mac) (net : Net) (ss : List Word) (t : Addresses)
    (h : Listed net ss) (hal : ∀ s ∈ ss, s.toNat % 0x1000 = 0) :
    Isolated mac net ss t ↔ Separated net ss t := by
  refine ⟨fun hi => ⟨fun s hs => ?_, fun a rest hss hport => belongs_of_head h hal hi hss hport⟩,
    isolated_of_separated h⟩
  obtain ⟨m, hm, hcase⟩ := mem_take_filter hs
  have hmem : s ∈ ss := (List.mem_filter.mp (List.mem_of_mem_take hs)).1
  by_cases hhead : net.openSockets = m
  · -- the first socket of the list is on the port
    cases ss with
    | nil => cases hmem
    | cons a rest =>
      have ham : a = m := h.chain.1.symm.trans hhead
      exact belongs_of_head h hal hi rfl (by simpa [ham] using List.find?_some hm) s hmem
  · rcases hcase with rfl | hw
    · exact belongs_of_first h hi hm
    · exact belongs_of_second h hi hm hw hhead

/-- Two connected sockets, at 0x1000 to port 80 of host 1 from port 5, and at 0x2000 to
port 80 of host 2 from port 7. -/
def twoSockets : Net where
  heap := fun a =>
    if a = 0x1000#32 then
      { clearedSocket with
        refcount := 2, srcPort := 5, saddr := ⟨1, 80, 1, Vector.replicate 8 0⟩
        state := CONNECTED, next := 0x2034 }
    else if a = 0x2000#32 then
      { clearedSocket with
        refcount := 2, srcPort := 7, saddr := ⟨1, 80, 2, Vector.replicate 8 0⟩
        state := CONNECTED }
    else clearedSocket
  openSockets := 0x1000
  next := 0
  freed := []
  sent := []

theorem twoSockets_listed : Listed twoSockets [0x1000, 0x2000] :=
  ⟨⟨rfl, by decide, by decide, by decide,
    show nextSocket twoSockets.heap 0x2000 = 0 by decide⟩, by decide, by simp [listOffset]⟩

theorem twoSockets_aligned : ∀ s ∈ [0x1000#32, 0x2000#32], s.toNat % 0x1000 = 0 := by
  simp

theorem connections_isolated_iff_twoSockets :
    Listed twoSockets [0x1000, 0x2000] ∧
      (Isolated (Vector.replicate 6 0) twoSockets [0x1000, 0x2000] ⟨2, 80, 7⟩ ↔
        Separated twoSockets [0x1000, 0x2000] ⟨2, 80, 7⟩) :=
  ⟨twoSockets_listed, connections_isolated_iff _ _ _ _ twoSockets_listed twoSockets_aligned⟩

/-- A FIN from host 3 ends the connection with host 2. -/
theorem foreign_fin_closes_connection :
    ¬ ∀ (mac : Mac) (net : Net) (ss : List Word) (fr : Frame) (net' : Net), Listed net ss →
      (∀ s ∈ ss, s.toNat % 0x1000 = 0) → tcpHandleFrame mac net fr = some net' →
      ∀ s ∈ ss, ¬ ForSocket fr (net.heap s) → Undisturbed net net' s := by
  intro h
  obtain ⟨net', hr, hst⟩ : ∃ net ∈ tcpHandleFrame (Vector.replicate 6 0) twoSockets
      (bareFrame ⟨3, 80, 7⟩ { fin := true }), (net.heap 0x2000#32).state = LAST_ACK := by
    decide
  have hund := h _ _ _ _ net' twoSockets_listed twoSockets_aligned hr 0x2000 (by decide)
    (fun hb => absurd hb.2.1 (by decide))
  have hview := congrArg Prod.fst hund.view
  change (net'.heap 0x2000#32).state = CONNECTED at hview
  rw [hst] at hview
  exact absurd hview (by decide)

end TapiOS.Network.Isolation
