import TapiOS.Network.Tcp

/-!
# The list of open sockets

`Listed net ss` relates the `list.next` pointers from `open_sockets` to the list of
sockets a `list_foreach` loop visits. Over it the loops of tcp.c become
`List.find?`, and taking out a socket that is not the first one becomes `List.erase`.
-/
namespace TapiOS.Network

open Lib Util

variable {heap : Word → Socket} {s v : Word} {fr : Frame} {rest ys : List Word}

/-- The sockets a list_foreach loop over `open_sockets` visits. -/
structure Listed (net : Net) (ss : List Word) : Prop where
  chain : Chain 0 (nextSocket net.heap) net.openSockets ss
  nodup : ss.Nodup
  fields : ∀ s ∈ ss, s + listOffset ≠ 0

theorem chain_congr {heap' : Word → Socket} {p : Word} {ss : List Word}
    (h : Chain 0 (nextSocket heap) p ss) (hn : ∀ s ∈ ss, (heap' s).next = (heap s).next) :
    Chain 0 (nextSocket heap') p ss :=
  h.congr (fun s hs => by rw [nextSocket, nextSocket, hn s hs])

/-- The link a removal looks for is the link to the socket. -/
theorem link_iff (hv : v ≠ 0) (hf : v + listOffset ≠ 0) :
    ((heap s).next == v + listOffset) = decide (nextSocket heap s = v) := by
  rw [Bool.eq_iff_iff, beq_iff_eq, decide_eq_true_eq, nextSocket]
  split_ifs with hz
  · rw [hz]
    exact ⟨fun h => absurd h.symm hf, fun h => absurd h.symm hv⟩
  · refine ⟨fun h => by bv_omega, fun h => by bv_omega⟩

theorem nextSocket_eq_zero (h : (heap s).next ≠ listOffset) :
    nextSocket heap s = 0 ↔ (heap s).next = 0 := by
  unfold nextSocket
  split_ifs with hz
  · simp [hz]
  · refine ⟨fun he => absurd ?_ h, fun he => absurd he hz⟩
    bv_omega

/-- Links lead to list fields of sockets: none is the list field of a socket at NULL. -/
def Links (net : Net) (ss : List Word) : Prop := ∀ s ∈ ss, (net.heap s).next ≠ listOffset

section Find
variable {net : Net} {ss : List Word}

theorem Listed.length_le (h : Listed net ss) : ss.length ≤ loopBound := nodup_length_le h.nodup

theorem Listed.find (h : Listed net ss) (test : Word → Bool) :
    net.find test = some ((ss.find? test).getD 0) :=
  h.chain.find test h.length_le

/-- The part of a socket that belongs to its connection. -/
def Socket.view (s : Socket) : Byte × Word × Word × Word × Mem :=
  (s.state, s.seqNo, s.ackNo, s.pos, s.buf)

/-- The two ends of a connection. -/
def Socket.ends (s : Socket) : Half × SockaddrIn := (s.srcPort, s.saddr)

/-- Removing a socket that is not the first one: it leaves the list, and no other
socket changes but for its link. -/
theorem unlink_spec (h : Listed net ss) (hv : v ∈ ss) (hh : net.openSockets ≠ v) :
    ∃ net', unlink net v = some net' ∧ Listed net' (ss.erase v) ∧
      net'.freed = net.freed ∧ net'.sent = net.sent ∧ net'.openSockets = net.openSockets ∧
      ∀ a, ∃ n, net'.heap a = { net.heap a with next := n } ∧
        (n = (net.heap a).next ∨ n = (net.heap v).next) := by
  obtain ⟨xs, ys, rfl⟩ := List.append_of_mem hv
  rcases List.eq_nil_or_concat xs with rfl | ⟨xs, q, rfl⟩
  · exact absurd h.chain.1 hh
  rw [List.concat_eq_append, List.append_assoc, List.singleton_append] at h ⊢
  have hd := h.nodup
  have hq0 : q ≠ 0 := h.chain.ne_null q (by simp)
  have hne : ∀ a ∈ xs ++ [q], a ≠ v := by
    intro a ha he
    subst he
    rw [show xs ++ q :: a :: ys = (xs ++ [q]) ++ a :: ys by simp] at hd
    exact (List.nodup_append.mp hd).2.2 a ha a (.head _) rfl
  have herase : (xs ++ q :: v :: ys).erase v = xs ++ q :: ys := by
    rw [List.erase_append_right _ (fun hm => hne v (by simp [hm]) rfl),
      List.erase_cons_tail (by simpa using hne q (by simp)), List.erase_cons_head]
  have hv0 : v ≠ 0 := h.chain.ne_null v (by simp)
  have hfind := h.find (fun s => (net.heap s).next == v + listOffset)
  simp only [link_iff hv0 (h.fields v (by simp))] at hfind
  rw [h.chain.find_link hd, Option.getD_some] at hfind
  refine ⟨net.modify q (fun t => { t with next := (net.heap v).next }), ?_, ?_, rfl, rfl, rfl, ?_⟩
  · simp only [unlink, hh.symm, ↓reduceIte, link_iff hv0 (h.fields v (by simp)), hfind, hq0]
  · rw [herase]
    refine ⟨h.chain.skip hd (by simp [nextSocket]) (fun a ha => ?_), ?_, ?_⟩
    · have hqa : a ≠ q := by
        intro he
        subst he
        have hnd := List.nodup_append.mp hd
        rcases List.mem_append.mp ha with ha | ha
        · exact hnd.2.2 a ha a (.head _) rfl
        · exact (List.nodup_cons.mp hnd.2.1).1 (.tail _ ha)
      rw [nextSocket, nextSocket, modify_heap_other _ _ _ _ hqa]
    · rw [← herase]
      exact hd.erase v
    · intro s hs
      rw [← herase] at hs
      exact h.fields s (List.mem_of_mem_erase hs)
  · intro a
    by_cases ha : a = q
    · subst ha
      exact ⟨_, modify_heap_same .., .inr rfl⟩
    · exact ⟨_, modify_heap_other _ _ _ _ ha, .inl rfl⟩

/-- tcp_remove_connection finds the first socket that passes its test; unless that is
the first of the list, the effect is its removal and its state. -/
theorem tcpRemoveConnection_spec (h : Listed net ss) (hf : ss.find? (removeTest net fr) = some v)
    (hh : net.openSockets ≠ v) :
    ∃ net', tcpRemoveConnection net fr = some (v, net') ∧ Listed net' (ss.erase v) ∧
      (∀ a, a ≠ v → (net'.heap a).view = (net.heap a).view) ∧
      (∀ a, (net'.heap a).ends = (net.heap a).ends) ∧
      net'.openSockets = net.openSockets ∧
      ∀ a, (net'.heap a).next = (net.heap a).next ∨ (net'.heap a).next = (net.heap v).next := by
  have hv : v ∈ ss := List.mem_of_find?_eq_some hf
  have hv0 : v ≠ 0 := h.chain.ne_null v hv
  obtain ⟨net1, hu, hl, -, -, hopen, hheap⟩ := unlink_spec h hv hh
  have hfind := h.find (removeTest net fr)
  rw [hf, Option.getD_some] at hfind
  refine ⟨net1.modify v (fun s => { s with state := DISCONNECTED }),
    by simp only [tcpRemoveConnection, hfind, hv0, ↓reduceIte, hu], ?_, ?_, ?_, hopen, ?_⟩
  · refine ⟨chain_congr hl.chain (fun s _ => ?_), hl.nodup, hl.fields⟩
    by_cases hs : s = v
    · subst hs; rw [modify_heap_same]
    · rw [modify_heap_other _ _ _ _ hs]
  · intro a ha
    obtain ⟨n, hn, -⟩ := hheap a
    rw [modify_heap_other _ _ _ _ ha, hn]
    rfl
  · intro a
    obtain ⟨n, hn, -⟩ := hheap a
    by_cases ha : a = v
    · subst ha
      rw [modify_heap_same, hn]
      rfl
    · rw [modify_heap_other _ _ _ _ ha, hn]
      rfl
  · intro a
    obtain ⟨n, hn, hnext⟩ := hheap a
    by_cases ha : a = v
    · subst ha
      rw [modify_heap_same, hn]
      exact hnext
    · rw [modify_heap_other _ _ _ _ ha, hn]
      exact hnext

/-- Removing the first socket makes its link the start of the list. -/
theorem tcpRemoveConnection_head (h : Listed net (v :: rest)) (ht : removeTest net fr v) :
    tcpRemoveConnection net fr = some (v, Net.modify { net with openSockets := (net.heap v).next } v
      (fun s => { s with state := DISCONNECTED })) := by
  have hfind := h.find (removeTest net fr)
  rw [List.find?_cons_of_pos ht, Option.getD_some] at hfind
  have hv0 : v ≠ 0 := h.chain.2.1
  have hopen : net.openSockets = v := h.chain.1
  simp only [tcpRemoveConnection, hfind, hv0, ↓reduceIte, unlink, hopen]

/-- A socket that is followed by another is linked to its list field. -/
theorem Listed.next_eq {a b : Word} (h : Listed net (a :: b :: rest)) :
    (net.heap a).next = b + listOffset := by
  obtain ⟨-, -, hb, hb0, -⟩ := h.chain
  unfold nextSocket at hb
  split_ifs at hb with hz
  · exact absurd hb.symm hb0
  · rw [← hb, BitVec.sub_add_cancel]

/-- A socket behind which another is listed has a link, the last one has none. -/
theorem Listed.next_eq_zero_iff {xs : List Word} (h : Listed net (xs ++ s :: ys))
    (hl : Links net (xs ++ s :: ys)) : (net.heap s).next = 0 ↔ ys = [] := by
  have hc : ∀ p, Chain 0 (nextSocket net.heap) p (xs ++ s :: ys) →
      Chain 0 (nextSocket net.heap) (nextSocket net.heap s) ys := by
    clear h hl
    induction xs with
    | nil => exact fun p hp => hp.2.2
    | cons a xs ih => exact fun p hp => ih _ hp.2.2
  rw [← nextSocket_eq_zero (hl s (by simp))]
  have hys := hc _ h.chain
  refine ⟨fun h0 => ?_, fun he => ?_⟩
  · by_contra hne
    exact hys.head_ne hne h0
  · rw [he] at hys
    exact hys

theorem Listed.first_next_eq_zero_iff (h : Listed net (s :: ys)) (hl : Links net (s :: ys)) :
    (net.heap s).next = 0 ↔ ys = [] := by
  have h' : Listed net ([] ++ s :: ys) := h
  exact h'.next_eq_zero_iff hl

theorem tcpRemoveConnection_none (h : Listed net ss) (hf : ss.find? (removeTest net fr) = none) :
    tcpRemoveConnection net fr = some (0, net) := by
  have hfind := h.find (removeTest net fr)
  rw [hf, Option.getD_none] at hfind
  simp [tcpRemoveConnection, hfind]

/-- A removal that does not find the first of several sockets leaves a list of the others. -/
theorem tcpRemoveConnection_clean (h : Listed net ss) (hk : Links net ss)
    (hf : ss.find? (removeTest net fr) = some v)
    (hsole : net.openSockets = v → (net.heap v).next = 0) :
    ∃ net', tcpRemoveConnection net fr = some (v, net') ∧ Listed net' (ss.erase v) ∧
      Links net' (ss.erase v) := by
  by_cases hh : net.openSockets = v
  · cases ss with
    | nil => cases hf
    | cons a rest =>
      have ha : a = v := h.chain.1.symm.trans hh
      subst ha
      have hz := hsole hh
      have hrest := (h.first_next_eq_zero_iff hk).mp hz
      subst hrest
      refine ⟨_, tcpRemoveConnection_head h (List.find?_some hf), ?_, ?_⟩
      · rw [List.erase_cons_head]
        exact ⟨hz, by simp, by simp⟩
      · rw [List.erase_cons_head]
        simp [Links]
  · obtain ⟨net', hr, hl, -, -, -, hnext⟩ := tcpRemoveConnection_spec h hf hh
    refine ⟨net', hr, hl, fun s hs => ?_⟩
    rcases hnext s with he | he
    · rw [he]
      exact hk s (List.mem_of_mem_erase hs)
    · rw [he]
      exact hk v (List.mem_of_find?_eq_some hf)

end Find
end TapiOS.Network
