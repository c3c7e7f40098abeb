import TapiOS.Network.SocketList

/-!
# Opening a connection, syscall/syscalls.c and util/list.c

`connect` is the part of `_connect` from the lookup of the remote MAC address to the
SYN segment: it draws the numbers and the local port, and lists the socket unless some
listed socket already has the remote port.
-/
namespace TapiOS.Network

open Lib Util

/-- The loop of _list_add, from the list field of the socket at `s`: the socket with the
last link; `none` if the walk is still going on after `n` sockets. -/
def listEnd (heap : Word → Socket) : Nat → Word → Option Word
  | 0, _ => none
  | n + 1, s =>
    if (heap s).next = 0 then some s else listEnd heap n ((heap s).next - listOffset)

/-- `l->next=elem; elem->next=NULL` -/
def linkAfter (net : Net) (l s : Word) : Net :=
  (net.modify l (fun t => { t with next := s + listOffset })).modify s
    (fun t => { t with next := 0 })

/-- list_add of the socket at `s` to the list that starts with `os`. -/
def listAdd (net : Net) (os s : Word) : Option Net :=
  (listEnd net.heap loopBound os).map (linkAfter net · s)

/-- The test of the loop over open_sockets in _connect. -/
def takenTest (net : Net) (addr : SockaddrIn) (s : Word) : Bool :=
  (net.heap s).saddr.sinPort == addr.sinPort

/-- The SYN segment, given the state of rand before; its local port is drawn after its
sequence number. -/
def synSegment (mac destMac : Mac) (addr : SockaddrIn) (next : Word) : TcpPacket :=
  let next := nextRandom next
  let p := tcpBuildPacket mac destMac addr.sinAddr addr.sinPort { syn := true } [] next
  p.finish ((randValue (nextRandom next) % 65535).setWidth 16) p.tcp.seqNo 0

/-- The socket fields that _connect sets. -/
def Socket.connecting (p : TcpPacket) (destMac : Mac) (addr : SockaddrIn) (s : Socket) : Socket :=
  { s with
    saddr := addr, state := CONNECTING, seqNo := p.tcp.seqNo, ackNo := p.tcp.ackNo
    srcPort := p.tcp.portSrc, dstMac := destMac }

/-- The branch of _connect that lists the socket. -/
def openConnection (net : Net) (p : TcpPacket) (destMac : Mac) (s : Word) (addr : SockaddrIn) :
    Option Net :=
  let os := net.openSockets
  let net := net.modify s (Socket.connecting p destMac addr)
  match (if os ≠ 0 then listAdd net os s else some { net with openSockets := s }) with
  | none => none
  | some net => some (net.modify s (fun t => { t with next := 0 }))

/-- `_connect` of the socket at `s` up to its SYN; `none` if a walk over the list never ends. -/
def connect (mac destMac : Mac) (net : Net) (s : Word) (addr : SockaddrIn) : Option Net :=
  let p := synSegment mac destMac addr net.next
  match net.find (takenTest net addr) with
  | none => none
  | some found =>
    match (if found = 0 then openConnection net p destMac s addr else some net) with
    | none => none
    | some net' => some (net'.transmit (nextRandom (nextRandom net.next)) p)

section Lists
variable {net net' : Net} {xs ys : List Word} {p q s : Word}

/-- The walk of _list_add ends at the last socket. -/
theorem listEnd_spec {heap : Word → Socket} (n : Nat) (h : Chain 0 (nextSocket heap) p (xs ++ [q]))
    (hl : ∀ s ∈ xs ++ [q], (heap s).next ≠ listOffset) (hn : xs.length < n) :
    listEnd heap n p = some q := by
  induction n generalizing p xs with
  | zero => omega
  | succ n ih =>
    cases xs with
    | nil =>
      obtain ⟨rfl, -, hnext⟩ := h
      have hz := (nextSocket_eq_zero (hl p (by simp))).mp hnext
      simp [listEnd, hz]
    | cons a xs =>
      obtain ⟨rfl, -, hc⟩ := h
      have hz : (heap p).next ≠ 0 := by
        intro he
        rw [(nextSocket_eq_zero (hl p (by simp))).mpr he] at hc
        exact hc.head_ne (by simp) rfl
      have hnext : nextSocket heap p = (heap p).next - listOffset := if_neg hz
      simp only [listEnd, hz, ↓reduceIte]
      rw [hnext] at hc
      exact ih hc (fun t ht => hl t (.tail _ ht)) (by simpa using hn)

variable {ss : List Word} {pkt : TcpPacket} {destMac : Mac} {addr : SockaddrIn}

theorem connecting_next (a : Word) :
    ((net.modify s (Socket.connecting pkt destMac addr)).heap a).next = (net.heap a).next := by
  by_cases ha : a = s
  · subst ha
    rw [modify_heap_same]
    rfl
  · rw [modify_heap_other _ _ _ _ ha]

/-- On a list with sockets the last one, `q`, is linked to the socket, whose own link ends
the list. -/
theorem openConnection_links (h : Listed net (xs ++ [q])) (hl : Links net (xs ++ [q])) :
    ∃ net', openConnection net pkt destMac s addr = some net' ∧
      net'.openSockets = net.openSockets ∧ (net'.heap s).next = 0 ∧
      (q ≠ s → (net'.heap q).next = s + listOffset) ∧
      ∀ a, a ≠ s → a ≠ q → (net'.heap a).next = (net.heap a).next := by
  have hos : net.openSockets ≠ 0 := h.chain.head_ne (by simp)
  have hchain : Chain 0 (nextSocket (net.modify s (Socket.connecting pkt destMac addr)).heap)
      net.openSockets (xs ++ [q]) := chain_congr h.chain (fun a _ => connecting_next a)
  have hlen := h.length_le
  rw [List.length_append] at hlen
  have hend := listEnd_spec loopBound hchain (fun a ha => by
    rw [connecting_next]
    exact hl a ha) hlen
  have hr : openConnection net pkt destMac s addr =
      some ((linkAfter (net.modify s (Socket.connecting pkt destMac addr)) q s).modify s
        (fun t => { t with next := 0 })) := by
    simp only [openConnection, ne_eq, hos, not_false_eq_true, ↓reduceIte, listAdd, hend,
      Option.map_some]
  refine ⟨_, hr, rfl, by rw [modify_heap_same], fun hqs => ?_, fun a has haq => ?_⟩
  · rw [modify_heap_other _ _ _ _ hqs, linkAfter, modify_heap_other _ _ _ _ hqs, modify_heap_same]
  · rw [modify_heap_other _ _ _ _ has, linkAfter, modify_heap_other _ _ _ _ has,
      modify_heap_other _ _ _ _ haq, connecting_next]

theorem openConnection_empty (h : Listed net []) :
    ∃ net', openConnection net pkt destMac s addr = some net' ∧ net'.openSockets = s ∧
      (net'.heap s).next = 0 := by
  have hos : net.openSockets = 0 := h.chain
  have hr : openConnection net pkt destMac s addr =
      some (Net.modify { net.modify s (Socket.connecting pkt destMac addr) with openSockets := s } s
        (fun t => { t with next := 0 })) := by
    simp [openConnection, hos]
  exact ⟨_, hr, rfl, by rw [modify_heap_same]⟩

variable (pkt destMac addr) in
theorem openConnection_fresh (h : Listed net ss) (hl : Links net ss) (hs : s ∉ ss) (h0 : s ≠ 0)
    (hf : s + listOffset ≠ 0) :
    ∃ net', openConnection net pkt destMac s addr = some net' ∧ Listed net' (ss ++ [s]) ∧
      Links net' (ss ++ [s]) := by
  have hsl : s + listOffset ≠ listOffset := by bv_omega
  rcases List.eq_nil_or_concat ss with rfl | ⟨xs, q, rfl⟩
  · obtain ⟨net', hr, ho, hn⟩ := openConnection_empty (s := s)
      h
    refine ⟨net', hr, ⟨⟨ho, h0, ?_⟩, by simp, by simpa using hf⟩, ?_⟩
    · simp [nextSocket, hn, Chain]
    · intro a ha
      rw [List.mem_singleton.mp ha, hn]
      decide
  · rw [List.concat_eq_append] at h hl hs ⊢
    obtain ⟨net', hr, ho, hn, hq, hother⟩ := openConnection_links (s := s)
      h hl
    have hqs : q ≠ s := fun he => hs (by simp [he])
    have hd := h.nodup
    refine ⟨net', hr, ⟨?_, ?_, ?_⟩, ?_⟩
    · rw [List.append_assoc, ho]
      refine h.chain.append h0 ?_ ?_ (fun a ha => ?_)
      · rw [nextSocket, hq hqs, if_neg hf]
        bv_omega
      · simp [nextSocket, hn]
      · have has : a ≠ s := fun he => hs (by simp [← he, ha])
        have haq : a ≠ q := fun he => (List.nodup_append.mp hd).2.2 a ha q (by simp) he
        rw [nextSocket, nextSocket, hother a has haq]
    · exact List.nodup_append.mpr ⟨hd, by simp, fun a ha b hb he =>
        hs (by rw [← List.mem_singleton.mp hb, ← he]; exact ha)⟩
    · intro a ha
      rcases List.mem_append.mp ha with ha | ha
      · exact h.fields a ha
      · rw [List.mem_singleton.mp ha]
        exact hf
    · intro a ha
      by_cases has : a = s
      · rw [has, hn]
        decide
      · by_cases haq : a = q
        · rw [haq, hq hqs]
          exact hsl
        · rw [hother a has haq]
          refine hl a ?_
          rcases List.mem_append.mp ha with ha | ha
          · exact ha
          · exact absurd (List.mem_singleton.mp ha) has

variable (pkt destMac addr) in
/-- A socket that was listed ends the list: the sockets behind it are lost. -/
theorem openConnection_again (h : Listed net (xs ++ s :: ys)) (hl : Links net (xs ++ s :: ys)) :
    ∃ net', openConnection net pkt destMac s addr = some net' ∧ Listed net' (xs ++ [s]) ∧
      Links net' (xs ++ [s]) := by
  obtain ⟨zs, q, hzs⟩ : ∃ zs q, xs ++ s :: ys = zs ++ [q] := by
    rcases List.eq_nil_or_concat (xs ++ s :: ys) with he | ⟨zs, q, he⟩
    · simp at he
    · exact ⟨zs, q, he.trans (List.concat_eq_append ..)⟩
  obtain ⟨net', hr, ho, hn, -, hother⟩ := openConnection_links (s := s)
    (hzs ▸ h) (hzs ▸ hl)
  have hd := List.nodup_append.mp h.nodup
  -- the last socket is not one of those before `s`
  have hq : q ∈ s :: ys := by
    have hlast : (xs ++ s :: ys).getLast? = some q := by rw [hzs]; simp
    rw [List.getLast?_append_cons] at hlast
    exact List.mem_of_getLast? hlast
  have hnext : ∀ a ∈ xs, (net'.heap a).next = (net.heap a).next := fun a ha =>
    hother a (hd.2.2 a ha s (by simp)) (hd.2.2 a ha q hq)
  refine ⟨net', hr, ⟨?_, ?_, fun a ha => h.fields a ?_⟩, fun a ha => ?_⟩
  · rw [ho]
    refine h.chain.cut (by simp [nextSocket, hn]) (fun a ha => ?_)
    rw [nextSocket, nextSocket, hnext a ha]
  · exact List.nodup_append.mpr ⟨hd.1, by simp, fun a ha b hb =>
      hd.2.2 a ha b (by rw [List.mem_singleton.mp hb]; simp)⟩
  · rcases List.mem_append.mp ha with ha | ha
    · simp [ha]
    · simp [List.mem_singleton.mp ha]
  · rcases List.mem_append.mp ha with ha | ha
    · rw [hnext a ha]
      exact hl a (by simp [ha])
    · rw [List.mem_singleton.mp ha, hn]
      decide

end Lists
end TapiOS.Network
