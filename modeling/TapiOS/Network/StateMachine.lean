import TapiOS.Lib.Runs
import TapiOS.Network.Isolation

/-!
# The states of a connection

Along segments and local closes a socket should become CONNECTED only from CONNECTING,
and once it has left CONNECTED it should not come back. The SYN+ACK branch of
`tcp_handle_frame` does not look at the state, so both depend on when such segments come.
-/
namespace TapiOS.Network.StateMachine

open Lib Util Network

def socketClose (mac : Mac) (net : Net) (s : Word) : Net :=
  if (net.heap s).state = CONNECTED then
    let net := net.modify s (fun sock => { sock with state := FIN_WAIT1 })
    tcpSendPacket mac net s (net.heap s).seqNo (net.heap s).ackNo { fin := true, ack := true }
  else net

/-- A segment arrives, or a process closes the socket at `s`. -/
inductive Event where
  | segment (fr : Frame)
  | close (s : Word)

def step (mac : Mac) (net : Net) : Event → Except Unit (Unit × Net)
  | .segment fr =>
    match tcpHandleFrame mac net fr with
    | none => .error ()
    | some net => .ok ((), net)
  | .close s => .ok ((), socketClose mac net s)

/-- The socket that a segment is handled for. -/
def recipient (net : Net) (fr : Frame) : Option Word :=
  match handleReset net fr with
  | none => none
  | some net => net.find (portTest net fr)

def Event.isSynAck : Event → Bool
  | .segment fr => fr.tcp.opts.syn && fr.tcp.opts.ack
  | .close _ => false

/-- The states of a connection that is ending or has ended. -/
def ending : List Byte := [FIN_WAIT1, FIN_WAIT2, LAST_ACK, DISCONNECTED]

/-- Along a run, the socket at `a` becomes connected only from connecting and never again
once it is ending, and a SYN+ACK to a connected one leaves its numbers. -/
structure Orderly (a : Word) (tr : List (Transition Net Event Unit)) : Prop where
  connects : ∀ x ∈ tr, (x.post.heap a).state = CONNECTED →
    (x.pre.heap a).state = CONNECTED ∨ (x.pre.heap a).state = CONNECTING
  leaves : ∀ before x after, tr = before ++ x :: after →
    (x.pre.heap a).state ∈ ending →
    ∀ y ∈ x :: after, (y.post.heap a).state ≠ CONNECTED
  duplicates : ∀ x ∈ tr, x.input.isSynAck → (x.pre.heap a).state = CONNECTED →
    (x.post.heap a).seqNo = (x.pre.heap a).seqNo ∧ (x.post.heap a).ackNo = (x.pre.heap a).ackNo

/-- A SYN+ACK for the socket finds it connecting, or connected with the numbers that the
segment would set. -/
def InTurn (a : Word) (net : Net) : Event → Prop
  | .segment fr => fr.tcp.opts.syn → fr.tcp.opts.ack → recipient net fr = some a →
      (net.heap a).state = CONNECTING ∨ (net.heap a).state = CONNECTED ∧
        (net.heap a).seqNo = fr.tcp.ackNo ∧ (net.heap a).ackNo = fr.tcp.seqNo + htonl 1
  | .close _ => True

/-- The state is kept or is one of a connection that is ending. -/
def Ends (s s' : Socket) : Prop :=
  s'.state = s.state ∨ s'.state ∈ ending

/-- The numbers are kept. -/
def SameNumbers (s s' : Socket) : Prop := s'.seqNo = s.seqNo ∧ s'.ackNo = s.ackNo

section Effects
variable {mac : Mac} {net net' net1 : Net} {fr : Frame} {v : Word} {s s' t : Socket}

theorem Ends.trans (h : Ends s s') (h' : Ends s' t) : Ends s t := by
  rcases h' with h' | h'
  · rcases h with h | h
    · exact .inl (h'.trans h)
    · exact .inr (h' ▸ h)
  · exact .inr h'

theorem Ends.stays (h : Ends s s') (hs : s.state ∈ ending) : s'.state ∈ ending := by
  rcases h with h | h
  · exact h ▸ hs
  · exact h

theorem SameNumbers.trans (h : SameNumbers s s') (h' : SameNumbers s' t) : SameNumbers s t :=
  ⟨h'.1.trans h.1, h'.2.trans h.2⟩

theorem remove_ends (h : tcpRemoveConnection net fr = some (v, net')) (a : Word) :
    Ends (net.heap a) (net'.heap a) ∧ SameNumbers (net.heap a) (net'.heap a) := by
  obtain ⟨-, -, hheap⟩ := tcpRemoveConnection_effect h
  obtain ⟨n, st, hn, hst⟩ := hheap a
  rw [hn]
  refine ⟨?_, rfl, rfl⟩
  rcases hst with hst | ⟨-, hst⟩
  · exact .inl hst
  · exact .inr (by simp [ending, hst])

theorem socketFree_same (net : Net) (v a : Word) :
    Ends (net.heap a) ((socketFree net v).heap a) ∧
      SameNumbers (net.heap a) ((socketFree net v).heap a) := by
  rw [(socketFree_effect net v).2.2]
  by_cases ha : a = v
  · subst ha
    rw [modify_heap_same]
    exact ⟨.inl rfl, rfl, rfl⟩
  · rw [modify_heap_other _ _ _ _ ha]
    exact ⟨.inl rfl, rfl, rfl⟩

theorem handleReset_ends (h : handleReset net fr = some net') (a : Word) :
    Ends (net.heap a) (net'.heap a) ∧ SameNumbers (net.heap a) (net'.heap a) := by
  unfold handleReset at h
  split at h
  · split at h
    · cases h
    · next v net1 hr =>
      have h1 := remove_ends hr a
      split at h
      · cases h
        exact h1
      · cases h
        have h2 := socketFree_same net1 v a
        exact ⟨h1.1.trans h2.1, h1.2.trans h2.2⟩
  · cases h
    exact ⟨.inl rfl, rfl, rfl⟩

theorem modify_ends {f : Socket → Socket} (a : Word) (hf : Ends (net.heap v) (f (net.heap v))) :
    Ends (net.heap a) ((net.modify v f).heap a) := by
  by_cases ha : a = v
  · subst ha
    rw [modify_heap_same]
    exact hf
  · rw [modify_heap_other _ _ _ _ ha]
    exact .inl rfl

theorem tcpSendPacket_ends (seqNo ackNo : Word) (opts : TcpOpts) (a : Word) :
    Ends (net.heap a) ((tcpSendPacket mac net v seqNo ackNo opts).heap a) := by
  rw [send_heap]
  exact modify_ends a (.inl rfl)

theorem handleClosing_ends (h : handleClosing mac net v fr = some net') (a : Word) :
    Ends (net.heap a) (net'.heap a) := by
  have hs : Ends (net.heap a) ((if (net.heap v).state ≠ LAST_ACK then
      tcpSendPacket mac net v fr.tcp.ackNo (fr.tcp.seqNo + htonl 1) ackOpts else net).heap a) := by
    split_ifs
    · exact tcpSendPacket_ends _ _ _ a
    · exact .inl rfl
  simp only [handleClosing] at h
  split at h
  · cases h
  · next w net1 hr =>
    have h1 := hs.trans (remove_ends hr a).1
    split at h
    · cases h
      exact h1
    · cases h
      refine (h1.trans (modify_ends (v := w) a (.inr ?_))).trans (socketFree_same _ w a).1
      simp [ending]

theorem storeLoop_state (dp : Mem) (n : Nat) (i : Word) (s : Socket) :
    (storeLoop dp n i s).state = s.state := by
  induction n generalizing i s with
  | zero => rfl
  | succ n ih =>
    rw [storeLoop, ih]
    split_ifs <;> rfl

theorem handleData_ends (a : Word) : Ends (net.heap a) ((handleData mac net v fr).heap a) := by
  unfold handleData
  split_ifs
  · exact ((modify_ends a (.inl (storeLoop_state ..))).trans (modify_ends a (.inl rfl))).trans
      (tcpSendPacket_ends _ _ _ a)
  · exact .inl rfl

/-- The socket that a SYN+ACK is for becomes CONNECTED and takes its numbers; any other
effect of a segment on a socket keeps or ends its connection, and a SYN+ACK moves no
numbers but those. -/
theorem handleSocket_effect (h : handleSocket mac net v fr = some net') (a : Word) :
    (fr.tcp.opts.syn ∧ fr.tcp.opts.ack ∧ a = v ∧ (net'.heap a).state = CONNECTED ∧
      (net'.heap a).seqNo = fr.tcp.ackNo ∧ (net'.heap a).ackNo = fr.tcp.seqNo + htonl 1) ∨
    (Ends (net.heap a) (net'.heap a) ∧ (fr.tcp.opts.syn → fr.tcp.opts.ack →
      a ≠ v ∧ SameNumbers (net.heap a) (net'.heap a))) := by
  simp only [handleSocket] at h
  by_cases hsyn : (fr.tcp.opts.syn && fr.tcp.opts.ack)
  · obtain ⟨h1, h2⟩ := Bool.and_eq_true_iff.mp hsyn
    rw [if_pos hsyn, Option.some.injEq] at h
    by_cases ha : a = v
    · subst ha
      refine .inl ⟨h1, h2, rfl, ?_⟩
      rw [← h, modify_heap_same, send_heap, modify_heap_same]
      exact ⟨rfl, rfl, rfl⟩
    · have hsame : net'.heap a = net.heap a := by
        rw [← h, modify_heap_other _ _ _ _ ha, send_heap, modify_heap_other _ _ _ _ ha]
      rw [hsame]
      exact .inr ⟨.inl rfl, fun _ _ => ⟨ha, rfl, rfl⟩⟩
  rw [if_neg hsyn] at h
  refine .inr ⟨?_, fun h1 h2 => absurd (Bool.and_eq_true_iff.mpr ⟨h1, h2⟩) hsyn⟩
  by_cases hc : closes fr.tcp.opts (net.heap v).state
  · rw [if_pos hc] at h
    exact handleClosing_ends h a
  rw [if_neg hc] at h
  split at h
  · cases h
    exact modify_ends a (.inr (by simp [ending]))
  split at h
  · cases h
    rw [handleFin]
    refine (tcpSendPacket_ends _ _ _ a).trans (modify_ends a (.inr ?_))
    simp [ending]
  split at h
  · cases h
    exact handleData_ends a
  · cases h
    exact .inl rfl

variable {a : Word}

theorem tcpHandleFrame_effect (h : tcpHandleFrame mac net fr = some net') (ha : a ≠ 0) :
    (fr.tcp.opts.syn ∧ fr.tcp.opts.ack ∧ recipient net fr = some a ∧
      (net'.heap a).state = CONNECTED ∧ (net'.heap a).seqNo = fr.tcp.ackNo ∧
      (net'.heap a).ackNo = fr.tcp.seqNo + htonl 1) ∨
    (Ends (net.heap a) (net'.heap a) ∧ (fr.tcp.opts.syn → fr.tcp.opts.ack →
      recipient net fr ≠ some a ∧ SameNumbers (net.heap a) (net'.heap a))) := by
  unfold tcpHandleFrame at h
  split at h
  · cases h
  · next net1 hr =>
    obtain ⟨he, hn⟩ := handleReset_ends hr a
    unfold demultiplex at h
    split at h
    · cases h
    · next v hf =>
      have hrec : recipient net fr = some v := by simp only [recipient, hr, hf]
      by_cases hv : v = 0
      · -- no socket on the port: at most a reset is sent
        have hheap : net'.heap = net1.heap := by
          subst hv
          simp only [ne_eq, not_true_eq_false, ↓reduceIte] at h
          split at h
          · cases h
            rw [rejectSyn, transmit_heap]
          · cases h
            rfl
        rw [hheap, hrec]
        exact .inr ⟨he, fun _ _ => ⟨fun hs => ha (hv ▸ (Option.some.inj hs).symm), hn⟩⟩
      · rw [if_pos hv] at h
        rw [hrec]
        rcases handleSocket_effect h a with ⟨h1, h2, rfl, hrest⟩ | ⟨he', hsame⟩
        · exact .inl ⟨h1, h2, rfl, hrest⟩
        · refine .inr ⟨he.trans he', fun h1 h2 => ⟨?_, hn.trans (hsame h1 h2).2⟩⟩
          exact fun hs => (hsame h1 h2).1 (Option.some.inj hs).symm

theorem socketClose_ends (a : Word) : Ends (net.heap a) ((socketClose mac net v).heap a) := by
  unfold socketClose
  split_ifs
  · exact (modify_ends a (.inr (by simp [ending]))).trans (tcpSendPacket_ends _ _ _ a)
  · exact .inl rfl

/-- One step: a socket becomes CONNECTED from elsewhere only by a SYN+ACK for it, which
must be in turn for the socket to be CONNECTING or unmoved. -/
theorem step_orderly_iff {e : Event} (ha : a ≠ 0) (h : step mac net e = .ok ((), net')) :
    InTurn a net e ↔
      ((net'.heap a).state = CONNECTED →
        (net.heap a).state = CONNECTED ∨ (net.heap a).state = CONNECTING) ∧
      (e.isSynAck → (net.heap a).state = CONNECTED →
        SameNumbers (net.heap a) (net'.heap a)) := by
  have hends {s s' : Socket} (he : Ends s s') (hc : s'.state = CONNECTED) :
      s.state = CONNECTED := by
    rcases he with he | he
    · exact he.symm.trans hc
    · rw [hc] at he
      exact absurd he (by decide)
  cases e with
  | close v =>
    obtain ⟨-, rfl⟩ := Prod.mk.inj (Except.ok.inj h)
    exact ⟨fun _ => ⟨fun hc => .inl (hends (socketClose_ends a) hc), fun hs => by cases hs⟩,
      fun _ => trivial⟩
  | segment fr =>
    simp only [step] at h
    split at h
    · cases h
    · next net1 hr =>
      obtain ⟨-, rfl⟩ := Prod.mk.inj (Except.ok.inj h)
      simp only [InTurn, Event.isSynAck, Bool.and_eq_true]
      rcases tcpHandleFrame_effect hr ha with ⟨h1, h2, hrec, hst, hseq, hack⟩ | ⟨he, hsame⟩
      · refine ⟨fun hin => ?_, fun hp _ _ _ => ?_⟩
        · rcases hin h1 h2 hrec with hs | ⟨hs, hn1, hn2⟩
          · refine ⟨fun _ => .inr hs, fun _ hc => absurd (hs.symm.trans hc) (by decide)⟩
          · exact ⟨fun _ => .inl hs, fun _ _ => ⟨hseq.trans hn1.symm, hack.trans hn2.symm⟩⟩
        · rcases hp.1 hst with hs | hs
          · obtain ⟨hn1, hn2⟩ := hp.2 ⟨h1, h2⟩ hs
            exact .inr ⟨hs, hn1.symm.trans hseq, hn2.symm.trans hack⟩
          · exact .inl hs
      · refine ⟨fun _ => ⟨fun hc => .inl (hends he hc), fun hs _ => (hsame hs.1 hs.2).2⟩, ?_⟩
        exact fun _ h1 h2 hrec => absurd hrec (hsame h1 h2).1

/-- A connection that is ending goes on ending. -/
theorem step_ending {e : Event} (ha : a ≠ 0) (h : step mac net e = .ok ((), net'))
    (hin : InTurn a net e)
    (hst : (net.heap a).state ∈ ending) :
    (net'.heap a).state ∈ ending := by
  cases e with
  | close v =>
    obtain ⟨-, rfl⟩ := Prod.mk.inj (Except.ok.inj h)
    exact (socketClose_ends a).stays hst
  | segment fr =>
    simp only [step] at h
    split at h
    · cases h
    · next net1 hr =>
      obtain ⟨-, rfl⟩ := Prod.mk.inj (Except.ok.inj h)
      rcases tcpHandleFrame_effect hr ha with ⟨h1, h2, hrec, -⟩ | ⟨he, -⟩
      · rcases hin h1 h2 hrec with hs | ⟨hs, -⟩
        · rw [hs] at hst
          exact absurd hst (by decide)
        · rw [hs] at hst
          exact absurd hst (by decide)
      · exact he.stays hst

end Effects

/-- For every run of segments and closes and every socket: its connection is `Orderly`
exactly when every SYN+ACK for it comes in turn. -/
theorem connection_orderly_iff (mac : Mac) (net : Net) (a : Word) (ha : a ≠ 0)
    (events : List Event) (tr : List (Transition Net Event Unit))
    (hr : run (step mac) net events = some tr) :
    Orderly a tr ↔ ∀ x ∈ tr, InTurn a x.pre x.input := by
  have hstep := run_step hr
  refine ⟨fun h x hx => ?_, fun h => ⟨fun x hx => ?_, ?_, fun x hx => ?_⟩⟩
  · exact (step_orderly_iff ha (hstep x hx)).mpr ⟨h.connects x hx, h.duplicates x hx⟩
  · exact ((step_orderly_iff ha (hstep x hx)).mp (h x hx)).1
  · intro before x after htr hst
    subst htr
    have hx : x ∈ before ++ x :: after := by simp
    have hpost := step_ending ha (hstep x hx) (h x hx) hst
    obtain ⟨js, hafter⟩ := (run_around hr).2.2
    have hinv := run_invariant (fun s i o t hs hc hok => step_ending ha hok hc hs) hafter hpost
      (fun y hy => h y (by simp [hy]))
    intro y hy hc
    rcases List.mem_cons.mp hy with rfl | hy
    · rw [hc] at hpost
      exact absurd hpost (by decide)
    · have hend := (hinv y hy).2
      rw [hc] at hend
      exact absurd hend (by decide)
  · exact ((step_orderly_iff ha (hstep x hx)).mp (h x hx)).2

/-- A SYN+ACK, with number 100 and acknowledging 200, for the second of
`Isolation.twoSockets`. -/
def handshake : Frame :=
  let fr := Isolation.bareFrame ⟨2, 80, 7⟩ { syn := true, ack := true, offset := 5 }
  { fr with tcp := { fr.tcp with seqNo := htonl 100, ackNo := htonl 200 } }

/-- The two sockets with the second one still connecting. -/
def connectingNet : Net :=
  Isolation.twoSockets.modify 0x2000#32 (fun s => { s with state := CONNECTING })

theorem connection_orderly_handshake : ∃ tr, run (step (Vector.replicate 6 0)) connectingNet
    [.segment handshake, .close 0x2000] = some tr ∧ Orderly 0x2000 tr := by
  have hrun : (run (step (Vector.replicate 6 0)) connectingNet
      [.segment handshake, .close 0x2000]).isSome := by decide
  obtain ⟨tr, hr⟩ := Option.isSome_iff_exists.mp hrun
  refine ⟨tr, hr, (connection_orderly_iff _ _ 0x2000 (by decide) _ tr hr).mpr ?_⟩
  obtain ⟨o, t, rest, h1, hr', rfl⟩ := run_cons hr
  obtain ⟨o', t', rest', h2, hr'', rfl⟩ := run_cons hr'
  rw [run_nil hr'']
  intro x hx
  rcases List.mem_cons.mp hx with rfl | hx
  · exact fun _ _ _ => .inl rfl
  · rw [List.mem_singleton.mp hx]
    exact trivial

/-- The peer closes and then repeats its SYN+ACK: the connection is established again. -/
theorem synAck_revives_connection :
    ¬ ∀ (mac : Mac) (net : Net) (a : Word) (events : List Event)
      (tr : List (Transition Net Event Unit)), a ≠ 0 → (net.heap a).state = CONNECTING →
      run (step mac) net events = some tr → Orderly a tr := by
  intro h
  let fin : Frame := Isolation.bareFrame ⟨2, 80, 7⟩ { fin := true, ack := true, offset := 5 }
  obtain ⟨tr, hr, x, hx, hpre, hpost⟩ : ∃ tr ∈ run (step (Vector.replicate 6 0)) connectingNet
      [.segment handshake, .segment fin, .segment handshake],
      ∃ x ∈ tr, (x.pre.heap 0x2000#32).state = LAST_ACK ∧
        (x.post.heap 0x2000#32).state = CONNECTED := by decide
  have hc := (h _ _ 0x2000#32 _ tr (by decide) rfl hr).connects x hx hpost
  rw [hpre] at hc
  exact absurd hc (by decide)

end TapiOS.Network.StateMachine
