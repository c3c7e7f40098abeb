import TapiOS.Lib.Loops
import TapiOS.Network.Arp

/-!
# What the ARP cache holds

`Caches n ss l` relates the entries that a walk over `arp_cache` meets to the bindings of
addresses they hold. A reply adds a binding behind the others, once its address is not
bound yet; the first entry keeps the `list.next` its memory held before.
-/
namespace TapiOS.Network.Arp

open Lib Util Network

variable {e : Word} {xs : List Word} {next : Word → Word}

/-- The blocks of kmalloc are pages of their own. -/
structure Stocked (n : Node) : Prop where
  nodup : (n.supply.map (·.ptr)).Nodup
  ne_zero : ∀ b ∈ n.supply, b.ptr ≠ 0
  aligned : ∀ b ∈ n.supply, b.ptr.toNat % 0x1000 = 0

def binding (heap : Word → IpMacPair) (s : Word) : Word × Mac := ((heap s).ip, (heap s).mac)

structure Caches (n : Node) (ss : List Word) (l : List (Word × Mac)) : Prop where
  chain : Chain 0 (nextPair n.heap) n.arpCache ss
  nodup : ss.Nodup
  shows : ss.map (binding n.heap) = l
  links : ∀ s ∈ ss, (n.heap s).next ≠ pairOffset
  apart : ∀ b ∈ n.supply, b.ptr ∉ ss

section Node
variable (n : Node) (a : Word) (f : IpMacPair → IpMacPair)

@[simp] theorem modify_same : (n.modify a f).heap a = f (n.heap a) := by
  simp [Node.modify]

@[simp] theorem modify_other {s : Word} (h : s ≠ a) : (n.modify a f).heap s = n.heap s := by
  simp [Node.modify, h]

@[simp] theorem modify_arpCache : (n.modify a f).arpCache = n.arpCache := rfl
@[simp] theorem modify_supply : (n.modify a f).supply = n.supply := rfl
@[simp] theorem modify_myIp : (n.modify a f).myIp = n.myIp := rfl

end Node

theorem nextPair_eq_zero {heap : Word → IpMacPair} {s : Word} (h : (heap s).next ≠ pairOffset) :
    nextPair heap s = 0 ↔ (heap s).next = 0 := by
  unfold nextPair
  by_cases hz : (heap s).next = 0
  · simp [hz]
  · rw [if_neg hz]
    constructor
    · intro he
      exact absurd (by bv_omega) h
    · intro he
      exact absurd he hz

/-- The list field of a page is linked to by its address, which is not that of NULL. -/
theorem field_ne (ha : e.toNat % 0x1000 = 0) (h0 : e ≠ 0) :
    e + pairOffset ≠ 0 ∧ e + pairOffset ≠ pairOffset := by
  rw [pairOffset]
  constructor
  · intro he
    bv_omega
  · intro he
    bv_omega

section Lookup
variable {n : Node} {ss : List Word} {l : List (Word × Mac)} {p : ArpHeader}

theorem Caches.find (h : Caches n ss l) (test : Word → Bool) :
    n.find test = .ok ((ss.find? test).getD 0) := by
  have hlen : ss.length ≤ loopBound := nodup_length_le h.nodup
  rw [Node.find, h.chain.find test hlen]

theorem Caches.findMac (h : Caches n ss l) (ip : Word) :
    arpFindMac n ip = .ok ((l.find? fun b => b.1 == ip).map (·.2)) := by
  rw [arpFindMac, h.find, ok_bind, ← h.shows, List.find?_map]
  congr 1
  have he : ((fun b : Word × Mac => b.1 == ip) ∘ binding n.heap) = fun s => (n.heap s).ip == ip := rfl
  rw [he]
  cases hf : ss.find? fun s => (n.heap s).ip == ip with
  | none => rfl
  | some s =>
    have hs : s ≠ 0 := h.chain.ne_null s (List.mem_of_find?_eq_some hf)
    rw [Option.getD_some, if_neg hs]
    rfl

theorem Caches.learn_known (h : Caches n ss l) (hk : ∃ b ∈ l, b.1 = p.sourceIp) :
    n.learn p = .ok n := by
  obtain ⟨b, hb, hip⟩ := hk
  rw [← h.shows] at hb
  obtain ⟨t, ht, rfl⟩ := List.mem_map.mp hb
  have hne : n.arpCache ≠ 0 := h.chain.head_ne (List.ne_nil_of_mem ht)
  have hfound : (ss.find? fun s => (n.heap s).ip == p.sourceIp).isSome := by
    rw [List.find?_isSome]
    exact ⟨t, ht, by simpa [binding] using hip⟩
  obtain ⟨s, hs⟩ := Option.isSome_iff_exists.mp hfound
  have hs0 : s ≠ 0 := h.chain.ne_null s (List.mem_of_find?_eq_some hs)
  rw [Node.learn, if_neg hne, h.find, hs, ok_bind, Option.getD_some, if_pos hs0]
  rfl

end Lookup

section Learn
variable {n : Node} {ss : List Word} {l : List (Word × Mac)} {p : ArpHeader} {b : Block}
  {rest : List Block}

theorem kmalloc_eq (hb : n.supply = b :: rest) : n.kmalloc =
    .ok (b.ptr, { n with heap := Function.update n.heap b.ptr b.content, supply := rest }) := by
  rw [Node.kmalloc, hb]

/-- The first entry: whatever its memory held, it is found at once. -/
theorem learn_first (hc : n.arpCache = 0) (hb : n.supply = b :: rest) :
    ∃ n', n.learn p = .ok n' ∧ n'.arpCache = b.ptr ∧ n'.supply = rest ∧ n'.myIp = n.myIp ∧
      n'.heap b.ptr = ⟨p.sourceIp, p.sourceMac, b.content.next⟩ := by
  rw [Node.learn, if_pos hc, kmalloc_eq hb]
  refine ⟨_, rfl, rfl, rfl, rfl, ?_⟩
  simp [Node.record]

theorem Caches.first (h : Caches n [] l) (hs : Stocked n) (hb : n.supply = b :: rest)
    (hnext : b.content.next = 0) :
    ∃ n', n.learn p = .ok n' ∧ Caches n' [b.ptr] (l ++ [(p.sourceIp, p.sourceMac)]) ∧
      n'.supply = rest ∧ n'.myIp = n.myIp := by
  obtain ⟨n', hl, hcache, hsup, hip, hheap⟩ := learn_first (p := p) h.chain hb
  have hl0 : l = [] := by rw [← h.shows, List.map_nil]
  refine ⟨n', hl, ⟨?_, List.nodup_singleton _, ?_, ?_, ?_⟩, hsup, hip⟩
  · refine ⟨hcache, hs.ne_zero b (by simp [hb]), ?_⟩
    rw [nextPair, hheap, hnext]
    rfl
  · rw [hl0, List.map_singleton, binding, hheap]
    rfl
  · intro s hmem
    rw [List.mem_singleton.mp hmem, hheap, hnext]
    decide
  · intro c hc hmem
    -- the supply holds each block once
    have hd := hs.nodup
    rw [hb, List.map_cons, List.nodup_cons] at hd
    rw [hsup] at hc
    exact hd.1 (List.mem_singleton.mp hmem ▸ List.mem_map_of_mem hc)

/-- What a new address changes when there are entries already, `q` being the last one. -/
theorem Caches.learn_append {q : Word} (h : Caches n (xs ++ [q]) l) (hk : ∀ b ∈ l, b.1 ≠ p.sourceIp)
    (hb : n.supply = b :: rest) :
    ∃ n', n.learn p = .ok n' ∧ n'.arpCache = n.arpCache ∧ n'.supply = rest ∧ n'.myIp = n.myIp ∧
      n'.heap b.ptr = ⟨p.sourceIp, p.sourceMac, 0⟩ ∧
      n'.heap q = { n.heap q with next := b.ptr + pairOffset } ∧
      ∀ a, a ≠ b.ptr → a ≠ q → n'.heap a = n.heap a := by
  have hne : n.arpCache ≠ 0 := h.chain.head_ne (by simp)
  have hout : ∀ s ∈ xs ++ [q], s ≠ b.ptr := by
    intro s hs he
    exact h.apart b (by simp [hb]) (he ▸ hs)
  have hqb : q ≠ b.ptr := hout q (by simp)
  have hnone : ((xs ++ [q]).find? fun s => (n.heap s).ip == p.sourceIp) = none := by
    rw [List.find?_eq_none]
    intro s hs he
    apply hk (binding n.heap s) (h.shows ▸ List.mem_map_of_mem hs)
    exact beq_iff_eq.mp he
  have hlast : lastAlong (fun s => (Function.update n.heap b.ptr b.content s).next == 0)
      (fun s => (Function.update n.heap b.ptr b.content s).next - pairOffset) loopBound n.arpCache =
      some q := by
    have hlen := nodup_length_le h.nodup
    rw [List.length_append] at hlen
    apply h.chain.lastAlong loopBound _ _ hlen
    · intro s hs
      rw [Function.update_of_ne (hout s hs), nextPair_eq_zero (h.links s hs)]
      exact beq_iff_eq
    · intro s hs hnext
      rw [Function.update_of_ne (hout s (List.mem_append_left _ hs)), nextPair, if_neg]
      intro hz
      exact hnext (if_pos hz)
  rw [Node.learn, if_neg hne, h.find, hnone, ok_bind, kmalloc_eq hb]
  simp only [Option.getD_none, ne_eq, not_true_eq_false, ↓reduceIte, ok_bind, Node.listAdd, hlast]
  refine ⟨_, rfl, rfl, rfl, rfl, ?_, ?_, ?_⟩
  · simp [Node.record]
  · simp [Node.record, Node.modify, hqb]
  · intro a ha haq
    simp [Node.record, Node.modify, ha, haq]

theorem Caches.append {q : Word} (h : Caches n (xs ++ [q]) l) (hs : Stocked n)
    (hk : ∀ b ∈ l, b.1 ≠ p.sourceIp) (hb : n.supply = b :: rest) : ∃ n', n.learn p = .ok n' ∧
      Caches n' (xs ++ [q, b.ptr]) (l ++ [(p.sourceIp, p.sourceMac)]) ∧
      n'.supply = rest ∧ n'.myIp = n.myIp := by
  obtain ⟨n', hl, hcache, hsup, hip, hnew, hq, hother⟩ := h.learn_append hk hb
  have hbmem : b ∈ n.supply := by simp [hb]
  have hfield := field_ne (hs.aligned b hbmem) (hs.ne_zero b hbmem)
  have hout := h.apart b hbmem
  have hxs : ∀ a ∈ xs, n'.heap a = n.heap a := by
    intro a ha
    apply hother
    · intro he
      exact hout (he ▸ List.mem_append_left _ ha)
    · intro he
      exact (List.nodup_append.mp h.nodup).2.2 a ha q (by simp) he
  have hd := hs.nodup
  rw [hb, List.map_cons, List.nodup_cons] at hd
  refine ⟨n', hl, ⟨?_, ?_, ?_, ?_, ?_⟩, hsup, hip⟩
  · rw [hcache]
    apply h.chain.append (hs.ne_zero b hbmem)
    · rw [nextPair, hq, if_neg hfield.1]
      exact BitVec.add_sub_cancel ..
    · rw [nextPair, hnew]
      rfl
    · intro a ha
      rw [nextPair, nextPair, hxs a ha]
  · rw [show xs ++ [q, b.ptr] = (xs ++ [q]).concat b.ptr by simp]
    exact h.nodup.concat hout
  · rw [← h.shows]
    have hmap : xs.map (binding n'.heap) = xs.map (binding n.heap) :=
      List.map_congr_left fun a ha => by rw [binding, binding, hxs a ha]
    simp [hmap, binding, hnew, hq]
  · intro s hmem
    rcases List.mem_append.mp hmem with hmem | hmem
    · rw [hxs s hmem]
      exact h.links s (List.mem_append_left _ hmem)
    · rcases List.mem_pair.mp hmem with rfl | rfl
      · rw [hq]
        exact hfield.2
      · rw [hnew]
        show (0 : Word) ≠ pairOffset
        decide
  · intro c hc hmem
    rw [hsup] at hc
    rw [show xs ++ [q, b.ptr] = (xs ++ [q]) ++ [b.ptr] by simp] at hmem
    rcases List.mem_append.mp hmem with hmem | hmem
    · exact h.apart c (by simp [hb, hc]) hmem
    · exact hd.1 (List.mem_singleton.mp hmem ▸ List.mem_map_of_mem hc)

theorem Caches.learn_new (h : Caches n ss l) (hs : Stocked n) (hk : ∀ b ∈ l, b.1 ≠ p.sourceIp)
    (hb : n.supply = b :: rest) (hnext : l = [] → b.content.next = 0) :
    ∃ n' ss', n.learn p = .ok n' ∧ Caches n' ss' (l ++ [(p.sourceIp, p.sourceMac)]) ∧
      n'.supply = rest ∧ n'.myIp = n.myIp := by
  rcases List.eq_nil_or_concat ss with rfl | ⟨xs, q, rfl⟩
  · have hl0 : l = [] := by rw [← h.shows, List.map_nil]
    obtain ⟨n', hn'⟩ := h.first (p := p) hs hb (hnext hl0)
    exact ⟨n', _, hn'⟩
  · rw [List.concat_eq_append] at h
    obtain ⟨n', hn'⟩ := h.append hs hk hb
    exact ⟨n', _, hn'⟩

theorem Stocked.tail {n' : Node} (hs : Stocked n) (hb : n.supply = b :: rest)
    (hsup : n'.supply = rest) : Stocked n' := by
  have hsub : ∀ c ∈ n'.supply, c ∈ n.supply := by
    intro c hc
    rw [hb]
    exact .tail _ (hsup ▸ hc)
  have hd := hs.nodup
  rw [hb, List.map_cons, List.nodup_cons] at hd
  exact ⟨hsup ▸ hd.2, fun c hc => hs.ne_zero c (hsub c hc), fun c hc => hs.aligned c (hsub c hc)⟩

end Learn

section Frames

/-- A reply that is addressed to the host. -/
def answers (myIp : Word) (data : List Byte) : Bool :=
  isReply (ArpHeader.ofBytes data) && (ArpHeader.ofBytes data).targetIp == htonl myIp

def sourceIp (data : List Byte) : Word := (ArpHeader.ofBytes data).sourceIp

def sourceMac (data : List Byte) : Mac := (ArpHeader.ofBytes data).sourceMac

def handleFrames (n : Node) (frames : List (List Byte)) : Except Stop Node :=
  frames.foldlM (fun n data => do
    let r ← arpHandleFrame n data
    return r.2) n

/-- The first reply of an address to the host. -/
def firstReply (myIp : Word) (frames : List (List Byte)) (ip : Word) : Option (List Byte) :=
  frames.find? fun data => answers myIp data && sourceIp data == ip

/-- The addresses that replied to the host. -/
def repliers (myIp : Word) (frames : List (List Byte)) : Finset Word :=
  ((frames.filter (answers myIp)).map sourceIp).toFinset

variable {n : Node} {data : List Byte}

theorem isRequest_false {p : ArpHeader} (h : isReply p) : isRequest p = false := by
  rw [isReply, beq_iff_eq] at h
  rw [isRequest, h]
  decide

theorem handle_answer (h : answers n.myIp data) :
    arpHandleFrame n data = (do
      let n ← n.learn (ArpHeader.ofBytes data)
      return (none, n)) := by
  obtain ⟨hr, ht⟩ := (Bool.and_eq_true _ _).mp h
  have hreq := isRequest_false hr
  unfold arpHandleFrame
  rw [if_neg (by rw [hreq]; simp), if_pos ⟨hr, beq_iff_eq.mp ht⟩]

theorem handle_other (h : answers n.myIp data = false) :
    ∃ out, arpHandleFrame n data = .ok (out, n) := by
  unfold arpHandleFrame
  by_cases hreq : isRequest (ArpHeader.ofBytes data) ∧
      (ArpHeader.ofBytes data).targetIp = htonl n.myIp
  · rw [if_pos hreq]
    exact ⟨_, rfl⟩
  · rw [if_neg hreq, if_neg]
    · exact ⟨_, rfl⟩
    · intro hrep
      rw [answers, hrep.1, hrep.2] at h
      simp at h

end Frames

section Runs

/-- The bindings after some frames, with `total` blocks of memory at the start. -/
structure Tracks (myIp : Word) (total : Nat) (frames : List (List Byte)) (n : Node)
    (l : List (Word × Mac)) : Prop where
  cached : ∃ ss, Caches n ss l
  stocked : Stocked n
  host : n.myIp = myIp
  found : ∀ ip, (l.find? fun b => b.1 == ip).map (·.2) = (firstReply myIp frames ip).map sourceMac
  distinct : (l.map (·.1)).Nodup
  replied : ∀ b ∈ l, b.1 ∈ repliers myIp frames
  blocks : l.length + n.supply.length = total
  first : l = [] → ∀ b ∈ n.supply.head?, b.content.next = 0

variable {myIp ip : Word} {total : Nat} {done : List (List Byte)} {data : List Byte} {n : Node}
  {l : List (Word × Mac)}

theorem firstReply_append : firstReply myIp (done ++ [data]) ip =
    (firstReply myIp done ip).or (if answers myIp data && sourceIp data == ip then some data else none) := by
  rw [firstReply, List.find?_append, List.find?_singleton]
  rfl

theorem repliers_mono (rest : List (List Byte)) :
    repliers myIp done ⊆ repliers myIp (done ++ rest) := by
  intro a ha
  rw [repliers, List.mem_toFinset] at ha ⊢
  rw [List.filter_append, List.map_append]
  exact List.mem_append_left _ ha

theorem sourceIp_mem_repliers (h : answers myIp data) :
    sourceIp data ∈ repliers myIp (done ++ [data]) := by
  rw [repliers, List.mem_toFinset, List.filter_append, List.map_append]
  apply List.mem_append_right
  simp [h]

theorem Tracks.skip (h : Tracks myIp total done n l)
    (hk : answers myIp data → ∃ b ∈ l, b.1 = sourceIp data) :
    Tracks myIp total (done ++ [data]) n l := by
  refine { h with found := ?_, replied := fun b hb => repliers_mono _ (h.replied b hb) }
  intro ip
  rw [h.found, firstReply_append]
  cases hf : firstReply myIp done ip with
  | some d => rfl
  | none =>
    rw [Option.none_or, if_neg]
    intro hd
    obtain ⟨ha, hip⟩ := (Bool.and_eq_true _ _).mp hd
    obtain ⟨b, hb, hbip⟩ := hk ha
    -- the address is bound, so it replied before
    have hnone := h.found ip
    rw [hf, Option.map_none, Option.map_eq_none_iff, List.find?_eq_none] at hnone
    exact hnone b hb (by rw [hbip]; exact hip)

variable (h : Tracks myIp total done n l) (ha : answers myIp data)
  (hk : ∀ b ∈ l, b.1 ≠ sourceIp data)
include h ha hk

/-- The first reply of an address, for which there is memory. -/
theorem Tracks.add {n' : Node} {b : Block} {rest : List Block} {ss : List Word}
    (hb : n.supply = b :: rest) (hc : Caches n' ss (l ++ [(sourceIp data, sourceMac data)]))
    (hsup : n'.supply = rest) (hip : n'.myIp = n.myIp) :
    Tracks myIp total (done ++ [data]) n' (l ++ [(sourceIp data, sourceMac data)]) where
  cached := ⟨ss, hc⟩
  stocked := h.stocked.tail hb hsup
  host := hip.trans h.host
  found := by
    intro ip
    rw [List.find?_append, firstReply_append, ha]
    have hf := h.found ip
    cases hl : l.find? fun b => b.1 == ip with
    | some b =>
      rw [hl] at hf
      cases hd : firstReply myIp done ip with
      | none => simp [hd] at hf
      | some d => simpa [hd] using hf
    | none =>
      rw [hl, Option.map_none, eq_comm, Option.map_eq_none_iff] at hf
      rw [hf]
      by_cases hs : sourceIp data == ip
      · simp [hs]
      · simp [hs]
  distinct := by
    rw [List.map_append, List.map_singleton, ← List.concat_eq_append]
    apply h.distinct.concat
    intro hm
    obtain ⟨b, hb, he⟩ := List.mem_map.mp hm
    exact hk b hb he
  replied := by
    intro b hb
    rcases List.mem_append.mp hb with hb | hb
    · exact repliers_mono _ (h.replied b hb)
    · rw [List.mem_singleton.mp hb]
      exact sourceIp_mem_repliers ha
  blocks := by
    have hlen := h.blocks
    rw [hb, List.length_cons] at hlen
    rw [List.length_append, List.length_singleton, hsup]
    omega
  first := by
    intro h0
    simp at h0

/-- As long as the bound addresses are fewer than the blocks, there is one left. -/
theorem Tracks.room (hroom : (repliers myIp (done ++ [data])).card ≤ total) :
    ∃ b rest, n.supply = b :: rest := by
  have hd : ((l.map (·.1)).concat (sourceIp data)).Nodup := by
    apply h.distinct.concat
    intro hm
    obtain ⟨b, hb, he⟩ := List.mem_map.mp hm
    exact hk b hb he
  have hsub : ((l.map (·.1)).concat (sourceIp data)).toFinset ⊆ repliers myIp (done ++ [data]) := by
    intro a hm
    rw [List.mem_toFinset, List.concat_eq_append, List.mem_append] at hm
    rcases hm with hm | hm
    · obtain ⟨b, hb, rfl⟩ := List.mem_map.mp hm
      exact repliers_mono _ (h.replied b hb)
    · rw [List.mem_singleton.mp hm]
      exact sourceIp_mem_repliers ha
  have hcard := Finset.card_le_card hsub
  rw [List.toFinset_card_of_nodup hd, List.length_concat, List.length_map] at hcard
  have hlen := h.blocks
  cases hsup : n.supply with
  | nil =>
    rw [hsup, List.length_nil] at hlen
    omega
  | cons b rest => exact ⟨b, rest, rfl⟩

omit ha hk in
theorem Tracks.step (hroom : (repliers myIp (done ++ [data])).card ≤ total) :
    ∃ r l', arpHandleFrame n data = .ok r ∧ Tracks myIp total (done ++ [data]) r.2 l' := by
  cases ha : answers myIp data with
  | false =>
    obtain ⟨out, hout⟩ := handle_other (n := n) (h.host ▸ ha)
    exact ⟨(out, n), l, hout, h.skip (fun ht => by rw [ha] at ht; cases ht)⟩
  | true =>
    rw [handle_answer (h.host ▸ ha)]
    obtain ⟨ss, hc⟩ := h.cached
    by_cases hk : ∃ b ∈ l, b.1 = sourceIp data
    · rw [hc.learn_known hk]
      exact ⟨(none, n), l, rfl, h.skip fun _ => hk⟩
    · have hk' : ∀ b ∈ l, b.1 ≠ sourceIp data := fun b hb he => hk ⟨b, hb, he⟩
      obtain ⟨b, rest, hb⟩ := h.room ha hk' hroom
      obtain ⟨n', ss', hl, hc', hsup, hip⟩ := hc.learn_new (p := ArpHeader.ofBytes data) h.stocked hk' hb
        (fun h0 => h.first h0 b (by rw [hb]; rfl))
      rw [hl]
      exact ⟨(none, n'), _, rfl, h.add ha hk' hb hc' hsup hip⟩

end Runs

/-- From an empty cache, and if the memory of the first entry holds no link: after any
frames the walk over the cache ends, its addresses differ, and an address is found with the
hardware address of its first reply to the host. One block is needed for each address. -/
theorem arp_cache_exact (n : Node) (frames : List (List Byte)) (hempty : n.arpCache = 0)
    (hs : Stocked n) (hfirst : ∀ b ∈ n.supply.head?, b.content.next = 0)
    (hroom : (repliers n.myIp frames).card ≤ n.supply.length) :
    ∃ n', handleFrames n frames = .ok n' ∧
      (∃ ss, Chain 0 (nextPair n'.heap) n'.arpCache ss ∧ ss.Nodup ∧
        (ss.map fun s => (n'.heap s).ip).Nodup) ∧
      ∀ ip, arpFindMac n' ip = .ok ((firstReply n.myIp frames ip).map sourceMac) := by
  have h0 : Tracks n.myIp n.supply.length [] n [] := by
    refine ⟨⟨[], ⟨hempty, List.nodup_nil, rfl, by simp, by simp⟩⟩, hs, rfl, fun ip => rfl,
      List.nodup_nil, by simp, by simp, fun _ => hfirst⟩
  obtain ⟨n', hr, l, ht⟩ := foldlM_total (I := fun done n' =>
    ∃ l, Tracks n.myIp n.supply.length done n' l) ⟨[], h0⟩ (l := frames)
    (f := fun n data => do
      let r ← arpHandleFrame n data
      return r.2) (by
    intro done data rest s hl hi
    obtain ⟨l, ht⟩ := hi
    have hsub : repliers n.myIp (done ++ [data]) ⊆ repliers n.myIp frames := by
      rw [hl, show done ++ data :: rest = (done ++ [data]) ++ rest by simp]
      exact repliers_mono rest
    obtain ⟨r, l', hr, ht'⟩ := ht.step ((Finset.card_le_card hsub).trans hroom)
    rw [hr]
    exact ⟨r.2, rfl, l', ht'⟩)
  obtain ⟨ss, hc⟩ := ht.cached
  refine ⟨n', hr, ⟨ss, hc.chain, hc.nodup, ?_⟩, ?_⟩
  · have hd := ht.distinct
    rw [← hc.shows, List.map_map] at hd
    exact hd
  · intro ip
    rw [hc.findMac, ht.found]

/-- A host 1 with the given memory for its first two entries. -/
def lonelyNode (first : IpMacPair) : Node where
  myIp := 1
  mac := Vector.replicate 6 1
  net := Isolation.twoSockets
  heap := fun _ => ⟨0, Vector.replicate 6 0, 0⟩
  supply := [⟨0x5000, first⟩, ⟨0x6000, ⟨9, Vector.replicate 6 9, 9⟩⟩]

/-- The reply of a host to host 1. -/
def replyOf (ip : Word) (mac : Mac) : List Byte :=
  (ArpHeader.bytes ⟨0x0100, 0x0008, 6, 4, 0x0200, mac, ip, Vector.replicate 6 1, 0x01000000⟩)

theorem lonelyNode_stocked (first : IpMacPair) : Stocked (lonelyNode first) := by
  constructor
  · show ([0x5000, 0x6000] : List Word).Nodup
    decide
  · intro b hb
    have hp : b.ptr = 0x5000 ∨ b.ptr = 0x6000 := by
      rcases List.mem_pair.mp hb with rfl | rfl <;> simp
    rcases hp with hp | hp <;> rw [hp] <;> decide
  · intro b hb
    have hp : b.ptr = 0x5000 ∨ b.ptr = 0x6000 := by
      rcases List.mem_pair.mp hb with rfl | rfl <;> simp
    rcases hp with hp | hp <;> rw [hp] <;> decide

theorem arp_cache_exact_two :
    (lonelyNode ⟨7, Vector.replicate 6 7, 0⟩).arpCache = 0 ∧
    ∃ n', handleFrames (lonelyNode ⟨7, Vector.replicate 6 7, 0⟩)
        [replyOf 2 (Vector.replicate 6 2), replyOf 3 (Vector.replicate 6 3),
          replyOf 2 (Vector.replicate 6 4)] = .ok n' ∧
      arpFindMac n' 2 = .ok (some (Vector.replicate 6 2)) ∧ arpFindMac n' 7 = .ok none := by
  obtain ⟨n', hr, -, hf⟩ := arp_cache_exact (lonelyNode ⟨7, Vector.replicate 6 7, 0⟩)
    [replyOf 2 (Vector.replicate 6 2), replyOf 3 (Vector.replicate 6 3),
      replyOf 2 (Vector.replicate 6 4)] rfl (lonelyNode_stocked _)
    (by intro b hb; cases hb; rfl) (by decide)
  refine ⟨rfl, n', hr, ?_, ?_⟩
  · rw [hf]
    exact congrArg Except.ok (by decide)
  · rw [hf]
    exact congrArg Except.ok (by decide)

/-- A walk that comes back to its first entry never ends. -/
theorem no_chain_of_loop {ss : List Word} (he : e ≠ 0) (hn : next e = e) : ¬ Chain 0 next e ss := by
  intro h
  cases ss with
  | nil => exact he h
  | cons s ss =>
    obtain ⟨rfl, -, hc⟩ := h
    rw [hn] at hc
    have hloop : Chain 0 next e (e :: ss) := ⟨rfl, he, by rw [hn]; exact hc⟩
    have hlen := congrArg List.length (hc.unique hloop)
    simp at hlen

theorem findAlong_of_loop {test : Word → Bool} (he : e ≠ 0) (hn : next e = e) (ht : test e = false)
    (k : Nat) : findAlong 0 next test k e = none := by
  induction k with
  | zero => rw [findAlong, if_neg he]
  | succ k ih => rw [findAlong, if_neg he, ht, hn, ih]; rfl

/-- The memory of the first entry links to itself: after one reply the cache has no end, and
the search for another address never returns. -/
theorem first_entry_keeps_link : Stocked (lonelyNode ⟨7, Vector.replicate 6 7, 0x500C⟩) ∧
    ∃ n', handleFrames (lonelyNode ⟨7, Vector.replicate 6 7, 0x500C⟩)
        [replyOf 2 (Vector.replicate 6 2)] = .ok n' ∧
      (¬ ∃ ss, Chain 0 (nextPair n'.heap) n'.arpCache ss) ∧
      arpFindMac n' 3 = .error .endlessList := by
  refine ⟨lonelyNode_stocked _, ?_⟩
  have ha : answers 1 (replyOf 2 (Vector.replicate 6 2)) := by decide
  have hp : ArpHeader.ofBytes (replyOf 2 (Vector.replicate 6 2)) =
      ⟨0x0100, 0x0008, 6, 4, 0x0200, Vector.replicate 6 2, 2, Vector.replicate 6 1, 0x01000000⟩ := by
    have h := ofBytes_bytes ⟨0x0100, 0x0008, 6, 4, 0x0200, Vector.replicate 6 2, 2,
      Vector.replicate 6 1, 0x01000000⟩ []
    rwa [List.append_nil] at h
  obtain ⟨n', hl, hcache, -, -, hheap⟩ := learn_first (n := lonelyNode ⟨7, Vector.replicate 6 7, 0x500C⟩)
    (p := ArpHeader.ofBytes (replyOf 2 (Vector.replicate 6 2))) rfl rfl
  rw [hp] at hheap
  have hnext : nextPair n'.heap 0x5000 = 0x5000 := by
    rw [nextPair, hheap]
    rfl
  refine ⟨n', ?_, ?_, ?_⟩
  · have hh := handle_answer (n := lonelyNode ⟨7, Vector.replicate 6 7, 0x500C⟩) ha
    rw [hl] at hh
    simp only [handleFrames, List.foldlM_cons, hh, List.foldlM_nil]
    rfl
  · intro h
    obtain ⟨ss, hss⟩ := h
    rw [hcache] at hss
    exact no_chain_of_loop (by decide) hnext hss
  · have hf : findAlong 0 (nextPair n'.heap) (fun s => (n'.heap s).ip == 3) loopBound
        (0x5000 : Word) = none := by
      apply findAlong_of_loop (by decide) hnext
      rw [hheap]
      decide
    rw [arpFindMac, Node.find, hcache]
    rw [show (⟨0x5000, _⟩ : Block).ptr = 0x5000 from rfl, hf]
    rfl

end TapiOS.Network.Arp
