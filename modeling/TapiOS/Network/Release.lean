import TapiOS.Network.Connect
import TapiOS.Network.StateMachine

/-!
# What the network path does to the memory of sockets

A segment leaves the reference counts, inodes and buffers of all sockets alone, or it
releases sockets: takes them off the list, gives up the kernel's reference and frees the
receive buffer, and the struct with the last reference. `Frees` is that as a relation.
-/
namespace TapiOS.Network.Release

open Lib Util Network Network.StateMachine

/-- The part of a struct socket that decides over its memory. -/
def memory (s : Socket) : Word × Word × Word := (s.refcount, s.inode, s.rcvbuf)

/-- Only the state of connections, their numbers and their data changed. -/
structure Untouched (net net' : Net) (ss : List Word) : Prop where
  listed : Listed net' ss
  links : Links net' ss
  memory : ∀ a, memory (net'.heap a) = memory (net.heap a)
  ends : ∀ a, (net'.heap a).ends = (net.heap a).ends
  next : ∀ a, (net'.heap a).next = (net.heap a).next
  openSockets : net'.openSockets = net.openSockets
  freed : net'.freed = net.freed

/-- The socket at `v` left the list and lost the kernel's reference and its buffer. -/
structure Released (net net' : Net) (ss : List Word) (v : Word) : Prop where
  mem : v ∈ ss
  listed : Listed net' (ss.erase v)
  links : Links net' (ss.erase v)
  others : ∀ a, a ≠ v → memory (net'.heap a) = memory (net.heap a)
  target : memory (net'.heap v) =
    ((net.heap v).refcount - 1, (net.heap v).inode, (net.heap v).rcvbuf)
  ends : ∀ a, (net'.heap a).ends = (net.heap a).ends
  freed : net'.freed = (if (net.heap v).refcount - 1 ≠ 0 then [(net.heap v).rcvbuf]
    else [v, (net.heap v).rcvbuf]) ++ net.freed

/-- A sequence of such steps; every socket released has been closed. -/
inductive Frees : Net → List Word → Net → List Word → Prop where
  | untouched {net net' : Net} {ss : List Word} (h : Untouched net net' ss) : Frees net ss net' ss
  | released {net net' : Net} {ss : List Word} {v : Word} (hv : (net.heap v).inode = 0)
      (h : Released net net' ss v) : Frees net ss net' (ss.erase v)
  | trans {net net1 net' : Net} {ss ss1 ss' : List Word} (h : Frees net ss net1 ss1)
      (h' : Frees net1 ss1 net' ss') : Frees net ss net' ss'

/-- A segment that makes the kernel remove a connection. -/
def Final (net : Net) (fr : Frame) : Prop :=
  fr.tcp.opts.rst ∨ ∃ sock, net.find (portTest net fr) = some sock ∧ sock ≠ 0 ∧
    (fr.tcp.opts.syn && fr.tcp.opts.ack) = false ∧ closes fr.tcp.opts (net.heap sock).state

/-- Every listed socket with the addresses of such a segment has been closed by its
process, and none is the first of several. -/
def Ripe (net : Net) (fr : Frame) : Prop :=
  Final net fr → ∀ s, Visits 0 (nextSocket net.heap) net.openSockets s →
    removeTest net fr s →
    (net.heap s).inode = 0 ∧ (net.openSockets = s → (net.heap s).next = 0)

section Untouched
variable {mac : Mac} {net net' net1 : Net} {ss : List Word} {v : Word} {fr : Frame}

theorem Untouched.trans (h : Untouched net net1 ss) (h' : Untouched net1 net' ss) :
    Untouched net net' ss :=
  ⟨h'.listed, h'.links, fun a => (h'.memory a).trans (h.memory a),
    fun a => (h'.ends a).trans (h.ends a), fun a => (h'.next a).trans (h.next a),
    h'.openSockets.trans h.openSockets, h'.freed.trans h.freed⟩

variable (h : Listed net ss) (hk : Links net ss)
include h hk

theorem untouched_of_same (ho : net'.openSockets = net.openSockets) (hf : net'.freed = net.freed)
    (hn : ∀ a, (net'.heap a).next = (net.heap a).next)
    (hm : ∀ a, memory (net'.heap a) = memory (net.heap a))
    (he : ∀ a, (net'.heap a).ends = (net.heap a).ends) : Untouched net net' ss := by
  refine ⟨⟨?_, h.nodup, h.fields⟩, fun s hs => ?_, hm, he, hn, ho, hf⟩
  · rw [ho]
    exact chain_congr h.chain (fun s _ => hn s)
  · rw [hn s]
    exact hk s hs

theorem untouched_refl : Untouched net net ss :=
  untouched_of_same h hk rfl rfl (fun _ => rfl) (fun _ => rfl) (fun _ => rfl)

variable {f : Socket → Socket}

theorem untouched_modify (hn : ∀ s, (f s).next = s.next)
    (hm : ∀ s, memory (f s) = memory s) (he : ∀ s, (f s).ends = s.ends) :
    Untouched net (net.modify v f) ss := by
  refine untouched_of_same h hk rfl rfl (fun a => ?_) (fun a => ?_) (fun a => ?_)
  all_goals
    by_cases ha : a = v
    · subst ha
      rw [modify_heap_same]
      first | exact hn _ | exact hm _ | exact he _
    · rw [modify_heap_other _ _ _ _ ha]

theorem listed_modify (hn : ∀ s, (f s).next = s.next) :
    Listed (net.modify v f) ss ∧ Links (net.modify v f) ss := by
  have hnext (a : Word) : ((net.modify v f).heap a).next = (net.heap a).next := by
    by_cases ha : a = v
    · subst ha
      rw [modify_heap_same, hn]
    · rw [modify_heap_other _ _ _ _ ha]
  refine ⟨⟨chain_congr h.chain (fun a _ => hnext a), h.nodup, h.fields⟩, fun a ha => ?_⟩
  rw [hnext]
  exact hk a ha

theorem untouched_transmit (next : Word) (p : TcpPacket) : Untouched net (net.transmit next p) ss :=
  untouched_of_same h hk rfl rfl (fun _ => rfl) (fun _ => rfl) (fun _ => rfl)

variable (mac) in
theorem untouched_send (seqNo ackNo : Word) (opts : TcpOpts) :
    Untouched net (tcpSendPacket mac net v seqNo ackNo opts) ss := by
  have hm := untouched_modify (v := v) h hk
    (f := fun sock => { sock with seqNo := seqNo, ackNo := ackNo })
    (fun _ => rfl) (fun _ => rfl) (fun _ => rfl)
  exact hm.trans (untouched_transmit hm.listed hm.links _ _)

variable (mac) in
theorem untouched_socketClose : Untouched net (socketClose mac net v) ss := by
  unfold socketClose
  split_ifs
  · have hm := untouched_modify (v := v) h hk (f := fun sock => { sock with state := FIN_WAIT1 })
      (fun _ => rfl) (fun _ => rfl) (fun _ => rfl)
    exact hm.trans (untouched_send mac hm.listed hm.links _ _ _)
  · exact untouched_refl h hk

end Untouched
section Connect
variable {mac destMac : Mac} {net net' : Net} {ss : List Word} {s v : Word} {addr : SockaddrIn}
  {pkt : TcpPacket}

theorem modify_memory {f : Socket → Socket} (hf : ∀ s, memory (f s) = memory s) (a : Word) :
    memory ((net.modify v f).heap a) = memory (net.heap a) := by
  by_cases ha : a = v
  · subst ha
    rw [modify_heap_same, hf]
  · rw [modify_heap_other _ _ _ _ ha]

theorem setNext_memory (n a : Word) :
    memory ((net.modify v (fun t => { t with next := n })).heap a) = memory (net.heap a) :=
  modify_memory (f := fun t => { t with next := n }) (fun _ => rfl) a

theorem openConnection_memory (h : openConnection net pkt destMac s addr = some net') :
    (∀ a, memory (net'.heap a) = memory (net.heap a)) ∧ net'.freed = net.freed := by
  have hc (a : Word) : memory ((net.modify s (Socket.connecting pkt destMac addr)).heap a) =
      memory (net.heap a) :=
    modify_memory (f := Socket.connecting pkt destMac addr) (fun _ => rfl) a
  simp only [openConnection, listAdd] at h
  split at h
  · cases h
  · next net1 h1 =>
    cases h
    split_ifs at h1
    · obtain ⟨l, -, rfl⟩ := Option.map_eq_some_iff.mp h1
      refine ⟨fun a => ?_, rfl⟩
      rw [setNext_memory, linkAfter, setNext_memory, setNext_memory, hc]
    · cases h1
      refine ⟨fun a => ?_, rfl⟩
      rw [setNext_memory]
      exact hc a

/-- A connect lists at most its own socket anew and leaves the memory of sockets alone. -/
theorem connect_spec (h : Listed net ss) (hk : Links net ss) (h0 : s ≠ 0) (hf : s + listOffset ≠ 0)
    (hr : connect mac destMac net s addr = some net') :
    ∃ ss', Listed net' ss' ∧ Links net' ss' ∧ (∀ a ∈ ss', a ∈ ss ∨ a = s) ∧
      (∀ a, memory (net'.heap a) = memory (net.heap a)) ∧ net'.freed = net.freed := by
  simp only [connect] at hr
  split at hr
  · cases hr
  · next found hfind =>
    split_ifs at hr
    · cases hop : openConnection net (synSegment mac destMac addr net.next) destMac s addr with
      | none =>
        rw [hop] at hr
        cases hr
      | some net1 =>
        rw [hop, Option.some.injEq] at hr
        obtain ⟨hm, hfree⟩ := openConnection_memory hop
        have hlist : ∃ ss', Listed net1 ss' ∧ Links net1 ss' ∧ ∀ a ∈ ss', a ∈ ss ∨ a = s := by
          by_cases hs : s ∈ ss
          · obtain ⟨xs, ys, rfl⟩ := List.append_of_mem hs
            obtain ⟨net2, hop', hl', hk'⟩ := openConnection_again _ _ _ h hk
            rw [hop, Option.some.injEq] at hop'
            refine ⟨_, hop' ▸ hl', hop' ▸ hk', fun a ha => ?_⟩
            rcases List.mem_append.mp ha with ha | ha
            · exact .inl (by simp [ha])
            · exact .inr (List.mem_singleton.mp ha)
          · obtain ⟨net2, hop', hl', hk'⟩ := openConnection_fresh _ _ _ h hk hs h0 hf
            rw [hop, Option.some.injEq] at hop'
            refine ⟨_, hop' ▸ hl', hop' ▸ hk', fun a ha => ?_⟩
            rcases List.mem_append.mp ha with ha | ha
            · exact .inl ha
            · exact .inr (List.mem_singleton.mp ha)
        obtain ⟨ss', hl', hk', hmem⟩ := hlist
        have hu := untouched_transmit hl' hk' (nextRandom (nextRandom net.next))
          (synSegment mac destMac addr net.next)
        rw [← hr]
        exact ⟨ss', hu.listed, hu.links, hmem, fun a => (hu.memory a).trans (hm a),
          hu.freed.trans hfree⟩
    · rw [Option.some.injEq] at hr
      have hu := untouched_transmit h hk (nextRandom (nextRandom net.next))
        (synSegment mac destMac addr net.next)
      rw [← hr]
      exact ⟨ss, hu.listed, hu.links, fun a ha => .inl ha, hu.memory, hu.freed⟩

end Connect

section Released
variable {mac : Mac} {net net' net1 net2 : Net} {ss : List Word} {v : Word} {fr : Frame}

theorem socketFree_freed (net : Net) (v : Word) :
    (socketFree net v).freed = (if (net.heap v).refcount - 1 ≠ 0 then [(net.heap v).rcvbuf]
      else [v, (net.heap v).rcvbuf]) ++ net.freed := by
  simp only [socketFree, modify_heap_same, modify_freed]
  split_ifs <;> rfl

theorem released_of_free (hv : v ∈ ss) (hl : Listed net1 (ss.erase v))
    (hk : Links net1 (ss.erase v)) (hm : ∀ a, memory (net1.heap a) = memory (net.heap a))
    (he : ∀ a, (net1.heap a).ends = (net.heap a).ends) (hf : net1.freed = net.freed) :
    Released net (socketFree net1 v) ss v := by
  obtain ⟨-, ho, hheap⟩ := socketFree_effect net1 v
  have hmv := hm v
  simp only [memory, Prod.mk.injEq] at hmv
  obtain ⟨hrc, hino, hbuf⟩ := hmv
  have hnext : ∀ a, ((socketFree net1 v).heap a).next = (net1.heap a).next := by
    intro a
    rw [hheap]
    by_cases ha : a = v
    · subst ha
      rw [modify_heap_same]
    · rw [modify_heap_other _ _ _ _ ha]
  refine ⟨hv, ⟨?_, hl.nodup, hl.fields⟩, fun s hs => ?_, fun a ha => ?_, ?_, fun a => ?_, ?_⟩
  · rw [ho]
    exact chain_congr hl.chain (fun s _ => hnext s)
  · rw [hnext s]
    exact hk s hs
  · rw [hheap, modify_heap_other _ _ _ _ ha]
    exact hm a
  · rw [hheap, modify_heap_same, memory]
    simp only [hrc, hino, hbuf]
  · rw [hheap, ← he a]
    by_cases ha : a = v
    · subst ha
      rw [modify_heap_same]
      rfl
    · rw [modify_heap_other _ _ _ _ ha]
  · rw [socketFree_freed, hrc, hbuf, hf]

theorem remove_same (h : tcpRemoveConnection net fr = some (v, net')) :
    (∀ a, memory (net'.heap a) = memory (net.heap a)) ∧
      (∀ a, (net'.heap a).ends = (net.heap a).ends) ∧ net'.freed = net.freed := by
  obtain ⟨-, hf, hheap⟩ := tcpRemoveConnection_effect h
  refine ⟨fun a => ?_, fun a => ?_, hf⟩
  all_goals
    obtain ⟨n, st, hn, -⟩ := hheap a
    rw [hn]
    rfl

variable (h : Listed net ss) (hk : Links net ss)
include h hk

/-- tcp_remove_connection and what its two callers do with the socket it returns. -/
theorem remove_free
    (hsole : ∀ s ∈ ss, removeTest net fr s → net.openSockets = s → (net.heap s).next = 0)
    (hr : tcpRemoveConnection net fr = some (v, net1)) :
    (v = 0 ∧ net1 = net) ∨
    (v ≠ 0 ∧ removeTest net fr v ∧ Released net (socketFree net1 v) ss v ∧
      Released net (socketFree (net1.modify v (fun t => { t with state := DISCONNECTED })) v) ss v) := by
  cases hf : ss.find? (removeTest net fr) with
  | none =>
    rw [tcpRemoveConnection_none h hf, Option.some.injEq, Prod.mk.injEq] at hr
    exact .inl ⟨hr.1.symm, hr.2.symm⟩
  | some w =>
    have hw := List.mem_of_find?_eq_some hf
    have hwt := List.find?_some hf
    obtain ⟨hm, he, hfree⟩ := remove_same hr
    obtain ⟨net2, hr', hl, hk'⟩ := tcpRemoveConnection_clean h hk hf (hsole w hw hwt)
    rw [hr] at hr'
    cases hr'
    have hu := untouched_modify (v := v) hl hk' (f := fun t => { t with state := DISCONNECTED })
      (fun _ => rfl) (fun _ => rfl) (fun _ => rfl)
    exact .inr ⟨h.chain.ne_null v hw, hwt, released_of_free hw hl hk' hm he hfree,
      released_of_free hw hu.listed hu.links (fun a => (hu.memory a).trans (hm a))
        (fun a => (hu.ends a).trans (he a)) (hu.freed.trans hfree)⟩

omit h hk in
theorem removeTest_congr (he : ∀ a, (net'.heap a).ends = (net.heap a).ends) (s : Word) :
    removeTest net' fr s = removeTest net fr s := by
  have h1 : (net'.heap s).srcPort = (net.heap s).srcPort := congrArg Prod.fst (he s)
  have h2 : (net'.heap s).saddr = (net.heap s).saddr := congrArg Prod.snd (he s)
  rw [removeTest, removeTest, h1, h2]

/-- Every socket of the list with the addresses of the segment may be released. -/
def AllRipe (net : Net) (fr : Frame) (ss : List Word) : Prop :=
  ∀ s ∈ ss, removeTest net fr s →
    (net.heap s).inode = 0 ∧ (net.openSockets = s → (net.heap s).next = 0)

theorem handleReset_frees (hrst : fr.tcp.opts.rst → AllRipe net fr ss)
    (hr : handleReset net fr = some net') :
    Untouched net net' ss ∨ ∃ v, v ≠ 0 ∧ fr.tcp.opts.rst ∧ removeTest net fr v ∧
      Released net net' ss v := by
  unfold handleReset at hr
  split at hr
  · next hb =>
    split at hr
    · cases hr
    · next v net1 hrem =>
      rcases remove_free h hk (fun s hs ht => (hrst hb s hs ht).2) hrem with ⟨rfl, rfl⟩ | ⟨h0, ht, hrel, -⟩
      · rw [if_pos rfl, Option.some.injEq] at hr
        exact .inl (hr ▸ untouched_refl h hk)
      · rw [if_neg h0, Option.some.injEq] at hr
        exact .inr ⟨v, h0, hb, ht, hr ▸ hrel⟩
  · cases hr
    exact .inl (untouched_refl h hk)

omit h hk in
theorem AllRipe.untouched (hr : AllRipe net fr ss) (hu : Untouched net net' ss) :
    AllRipe net' fr ss := by
  intro s hs ht
  rw [removeTest_congr hu.ends] at ht
  have hm := congrArg (fun m => m.2.1) (hu.memory s)
  obtain ⟨h0, hsole⟩ := hr s hs ht
  refine ⟨hm.trans h0, fun ho => ?_⟩
  rw [hu.next s]
  exact hsole (hu.openSockets ▸ ho)

/-- What is left after a release is ripe too: its first socket was the first before. -/
theorem AllRipe.released (hr : AllRipe net fr ss) (hrel : Released net net' ss v)
    (hv : removeTest net fr v) : AllRipe net' fr (ss.erase v) := by
  intro s hs ht
  rw [removeTest_congr hrel.ends] at ht
  have hsv : s ≠ v := fun he => h.nodup.not_mem_erase (he ▸ hs)
  have hm := congrArg (fun m => m.2.1) (hrel.others s hsv)
  obtain ⟨h0, hsole⟩ := hr s (List.mem_of_mem_erase hs) ht
  refine ⟨hm.trans h0, fun ho => ?_⟩
  exfalso
  cases ss with
  | nil => cases hrel.mem
  | cons a rest =>
    have ha : net.openSockets = a := h.chain.1
    by_cases hav : a = v
    · -- the first socket was alone
      subst hav
      have hrest := (h.first_next_eq_zero_iff hk).mp ((hr a hrel.mem hv).2 ha)
      rw [hrest, List.erase_cons_head] at hs
      cases hs
    · have hl := hrel.listed
      rw [List.erase_cons_tail (by simpa using hav)] at hl
      have hsa : a = s := hl.chain.1.symm.trans ho
      subst hsa
      have hrest := (h.first_next_eq_zero_iff hk).mp (hsole ha)
      have hmem := hrel.mem
      rw [hrest] at hmem
      exact hav (List.mem_singleton.mp hmem).symm

theorem handleClosing_frees (hripe : AllRipe net fr ss)
    (hr : handleClosing mac net v fr = some net') : ∃ ss', Frees net ss net' ss' := by
  have hu : Untouched net (if (net.heap v).state ≠ LAST_ACK then
      tcpSendPacket mac net v fr.tcp.ackNo (fr.tcp.seqNo + htonl 1) ackOpts else net) ss := by
    split_ifs
    · exact untouched_send mac h hk _ _ _
    · exact untouched_refl h hk
  simp only [handleClosing] at hr
  have hripe1 := hripe.untouched hu
  split at hr
  · cases hr
  · next w net1 hrem =>
    rcases remove_free hu.listed hu.links (fun s hs ht => (hripe1 s hs ht).2) hrem with
      ⟨rfl, rfl⟩ | ⟨h0, ht, -, hrel⟩
    · rw [if_pos rfl, Option.some.injEq] at hr
      exact ⟨ss, hr ▸ .untouched hu⟩
    · rw [if_neg h0, Option.some.injEq] at hr
      have hino := (hripe1 w hrel.mem ht).1
      exact ⟨ss.erase w, hr ▸ (Frees.untouched hu).trans (.released hino hrel)⟩

omit h hk in
theorem storeLoop_memory (dp : Mem) (n : Nat) (i : Word) (s : Socket) :
    memory (storeLoop dp n i s) = memory s := by
  induction n generalizing i s with
  | zero => rfl
  | succ n ih =>
    rw [storeLoop, ih]
    split_ifs <;> rfl

theorem handleData_untouched : Untouched net (handleData mac net v fr) ss := by
  unfold handleData
  split_ifs
  · have h1 := untouched_modify (v := v) h hk
      (f := fun s => storeLoop fr.data (datalen fr).toNat 0#32 s)
      (fun s => (Isolation.storeLoop_ends ..).2) (fun s => storeLoop_memory ..)
      (fun s => (Isolation.storeLoop_ends ..).1)
    have h2 := untouched_modify (v := v) h1.listed h1.links (f := fun s => { s with
      seqNo := fr.tcp.ackNo, ackNo := htonl (htonl fr.tcp.seqNo + datalen fr) })
      (fun _ => rfl) (fun _ => rfl) (fun _ => rfl)
    exact (h1.trans h2).trans (untouched_send mac h2.listed h2.links _ _ _)
  · exact untouched_refl h hk

/-- The branches for a socket: only the closing one frees. -/
theorem handleSocket_frees (hripe : (fr.tcp.opts.syn && fr.tcp.opts.ack) = false →
      closes fr.tcp.opts (net.heap v).state → AllRipe net fr ss)
    (hr : handleSocket mac net v fr = some net') : ∃ ss', Frees net ss net' ss' := by
  simp only [handleSocket] at hr
  by_cases hsyn : (fr.tcp.opts.syn && fr.tcp.opts.ack)
  · rw [if_pos hsyn, Option.some.injEq] at hr
    have hs := untouched_send mac (v := v) h hk fr.tcp.ackNo (fr.tcp.seqNo + htonl 1) ackOpts
    have hm := untouched_modify (v := v) hs.listed hs.links
      (f := fun s => { s with state := CONNECTED }) (fun _ => rfl) (fun _ => rfl) (fun _ => rfl)
    exact ⟨ss, hr ▸ .untouched (hs.trans hm)⟩
  rw [if_neg hsyn] at hr
  by_cases hc : closes fr.tcp.opts (net.heap v).state
  · rw [if_pos hc] at hr
    exact handleClosing_frees h hk (hripe (by simpa using hsyn) hc) hr
  rw [if_neg hc] at hr
  refine ⟨ss, .untouched ?_⟩
  split at hr
  · cases hr
    exact untouched_modify h hk (fun _ => rfl) (fun _ => rfl) (fun _ => rfl)
  split at hr
  · cases hr
    rw [handleFin]
    have hs := untouched_send mac (v := v) h hk (net.heap v).seqNo
      (if fr.tcp.opts.ack then htonl (htonl (net.heap v).ackNo + 1) else (net.heap v).ackNo)
      { fin := true, ack := fr.tcp.opts.ack }
    exact hs.trans (untouched_modify hs.listed hs.links (fun _ => rfl) (fun _ => rfl) (fun _ => rfl))
  split at hr
  · cases hr
    exact handleData_untouched h hk
  · cases hr
    exact untouched_refl h hk

theorem demultiplex_frees (hripe : ∀ sock, net.find (portTest net fr) = some sock → sock ≠ 0 →
      (fr.tcp.opts.syn && fr.tcp.opts.ack) = false →
      closes fr.tcp.opts (net.heap sock).state → AllRipe net fr ss)
    (hr : demultiplex mac net fr = some net') : ∃ ss', Frees net ss net' ss' := by
  unfold demultiplex at hr
  split at hr
  · cases hr
  · next v hf =>
    by_cases h0 : v = 0
    · rw [if_neg (not_not.mpr h0)] at hr
      refine ⟨ss, .untouched ?_⟩
      split at hr
      · cases hr
        exact untouched_transmit h hk _ _
      · cases hr
        exact untouched_refl h hk
    · rw [if_pos h0] at hr
      exact handleSocket_frees h hk (hripe v hf h0) hr

/-- A ripe segment changes the memory of sockets only by releasing closed ones. -/
theorem tcpHandleFrame_frees (hripe : Ripe net fr) (hr : tcpHandleFrame mac net fr = some net') :
    ∃ ss', Frees net ss net' ss' := by
  have hall (hf : Final net fr) : AllRipe net fr ss := fun s hs =>
    hripe hf s (h.chain.visits s hs)
  unfold tcpHandleFrame at hr
  split at hr
  · cases hr
  · next net1 hreset =>
    rcases handleReset_frees h hk (fun hb => hall (.inl hb)) hreset with hu | ⟨v, h0, hb, ht, hrel⟩
    · by_cases hb : fr.tcp.opts.rst
      · obtain ⟨ss', hfrees⟩ := demultiplex_frees hu.listed hu.links
          (fun _ _ _ _ _ => (hall (.inl hb)).untouched hu) hr
        exact ⟨ss', (Frees.untouched hu).trans hfrees⟩
      · rw [Isolation.handleReset_idle (by simpa using hb)] at hreset
        cases hreset
        exact demultiplex_frees h hk
          (fun sock hs h0 hsyn hc => hall (.inr ⟨sock, hs, h0, hsyn, hc⟩)) hr
    · have hripe1 := (hall (.inl hb)).released h hk hrel ht
      obtain ⟨ss', hfrees⟩ := demultiplex_frees hrel.listed hrel.links (fun _ _ _ _ _ => hripe1) hr
      have hino := (hall (.inl hb) v hrel.mem ht).1
      exact ⟨ss', (Frees.released hino hrel).trans hfrees⟩

end Released
end TapiOS.Network.Release
