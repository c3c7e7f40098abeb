import TapiOS.Task.FileCounts
import TapiOS.Task.Sockets

/-!
# Lifetime of struct sockets and receive buffers

`Sound` is the invariant: sockets that a slot or the list refers to are allocated, those
that can still be read or receive have their own buffer, and the count of such a socket
exceeds the number of its slots by the kernel's reference. A segment keeps it when the
sockets it releases have been closed.
-/
namespace TapiOS.Task.Sockets

open Lib Util Fs Network Network.Release Kernel

/-- A slot or the list refers to the socket. -/
def Refers (k : Kernel) (ss : List Word) (s : Word) : Prop :=
  (s ≠ 0 ∧ (k.holders s).Nonempty) ∨ s ∈ ss

/-- The socket can be read through a slot, or receives. -/
def Uses (k : Kernel) (net : Net) (ss : List Word) (s : Word) : Prop :=
  (s ≠ 0 ∧ (k.holders s).Nonempty ∧ (net.heap s).inode ≠ 0) ∨ s ∈ ss

structure Sound (k : Kernel) (net : Net) (blocks : Finset Word) (ss : List Word) : Prop where
  listed : Listed net ss
  links : Links net ss
  structs : ∀ s, Refers k ss s → s ∈ blocks
  fields : ∀ s, Refers k ss s → s + listOffset ≠ 0
  buffers : ∀ s, Uses k net ss s → (net.heap s).rcvbuf ∈ blocks
  apart : ∀ s t, Uses k net ss s → Uses k net ss t → s ≠ t →
    (net.heap s).rcvbuf ≠ (net.heap t).rcvbuf
  mixed : ∀ s t, Uses k net ss s → Refers k ss t → (net.heap s).rcvbuf ≠ t
  counts : ∀ s, s ≠ 0 → (k.holders s).card ≤ (net.heap s).refcount.toNat
  kernelRef : ∀ s, Uses k net ss s → (k.holders s).card + 1 ≤ (net.heap s).refcount.toNat

section Moves
variable {k k' : Kernel} {net net' : Net} {blocks : Finset Word} {ss ss' : List Word} {s v f : Word}
  {p : Nat} {i : Fd}

theorem Uses.refers (h : Uses k net ss s) : Refers k ss s :=
  h.elim (fun hs => .inl ⟨hs.1, hs.2.1⟩) .inr

theorem memory_eq (h : memory (net'.heap s) = memory (net.heap s)) :
    (net'.heap s).refcount = (net.heap s).refcount ∧ (net'.heap s).inode = (net.heap s).inode ∧
      (net'.heap s).rcvbuf = (net.heap s).rcvbuf := by
  simpa [memory] using h

variable (h : Sound k net blocks ss)
include h

/-- What refers to sockets and uses them may shrink; the counts are left to show. -/
theorem Sound.transfer (hl : Listed net' ss') (hk : Links net' ss')
    (hrefers : ∀ s, Refers k' ss' s → Refers k ss s)
    (huses : ∀ s, Uses k' net' ss' s → Uses k net ss s)
    (hbuf : ∀ s, (net'.heap s).rcvbuf = (net.heap s).rcvbuf)
    (hcounts : ∀ s, s ≠ 0 → (k'.holders s).card ≤ (net'.heap s).refcount.toNat)
    (hkernel : ∀ s, Uses k' net' ss' s → (k'.holders s).card + 1 ≤ (net'.heap s).refcount.toNat) :
    Sound k' net' blocks ss' := by
  refine ⟨hl, hk, fun s hs => h.structs s (hrefers s hs), fun s hs => h.fields s (hrefers s hs),
    fun s hs => ?_, fun s t hs ht => ?_, fun s t hs ht => ?_, hcounts, hkernel⟩
  · rw [hbuf]
    exact h.buffers s (huses s hs)
  · rw [hbuf, hbuf]
    exact h.apart s t (huses s hs) (huses t ht)
  · rw [hbuf]
    exact h.mixed s t (huses s hs) (hrefers t ht)

omit h in
theorem Uses.ne_zero (hl : Listed net ss) (h : Uses k net ss s) : s ≠ 0 :=
  h.elim (fun hs => hs.1) (fun hs => hl.chain.ne_null s hs)

/-- Slots may be cleared and inodes given up, and the list may hold any sockets in use,
while counts and buffers stay. -/
theorem Sound.shrink (hl : Listed net' ss') (hk : Links net' ss') (hss : ∀ s ∈ ss', Uses k net ss s)
    (hh : ∀ s, s ≠ 0 → k'.holders s ⊆ k.holders s)
    (hrc : ∀ s, (net'.heap s).refcount = (net.heap s).refcount)
    (hino : ∀ s, (net'.heap s).inode ≠ 0 → (net.heap s).inode ≠ 0)
    (hbuf : ∀ s, (net'.heap s).rcvbuf = (net.heap s).rcvbuf) : Sound k' net' blocks ss' := by
  have huses : ∀ s, Uses k' net' ss' s → Uses k net ss s := fun s hs =>
    hs.elim (fun hs => .inl ⟨hs.1, hs.2.1.mono (hh s hs.1), hino s hs.2.2⟩) (hss s)
  refine h.transfer hl hk (fun s hs => ?_) huses hbuf (fun s hs => ?_) (fun s hs => ?_)
  · exact hs.elim (fun hs => .inl ⟨hs.1, hs.2.mono (hh s hs.1)⟩) (fun hs => (hss s hs).refers)
  · rw [hrc]
    exact (Finset.card_le_card (hh s hs)).trans (h.counts s hs)
  · rw [hrc]
    have hle := Finset.card_le_card (hh s (hs.ne_zero hl))
    have hk := h.kernelRef s (huses s hs)
    omega

theorem Sound.untouched (hu : Untouched net net' ss) : Sound k net' blocks ss :=
  h.shrink hu.listed hu.links (fun _ hs => .inr hs) (fun _ _ => Finset.Subset.refl _)
    (fun s => (memory_eq (hu.memory s)).1) (fun s hs => (memory_eq (hu.memory s)).2.1 ▸ hs)
    (fun s => (memory_eq (hu.memory s)).2.2)

theorem Sound.clear : Sound (k.setFd p i 0) net blocks ss :=
  h.shrink h.listed h.links (fun _ hs => .inr hs) (fun _ hs => holders_setFd_subset hs.symm)
    (fun _ => rfl) (fun _ hs => hs) (fun _ => rfl)

/-- The blocks a release frees are allocated, each once. -/
def FreedFrom (blocks : Finset Word) (ps : List Word) : Prop := ps.Nodup ∧ ∀ p ∈ ps, p ∈ blocks

omit h in
theorem FreedFrom.append {ps qs : List Word} (hp : FreedFrom blocks ps)
    (hq : FreedFrom (blocks \ ps.toFinset) qs) : FreedFrom blocks (qs ++ ps) := by
  have hmem : ∀ a ∈ qs, a ∈ blocks ∧ a ∉ ps := fun a ha => by
    have h := Finset.mem_sdiff.mp (hq.2 a ha)
    exact ⟨h.1, fun hm => h.2 (List.mem_toFinset.mpr hm)⟩
  refine ⟨List.nodup_append.mpr ⟨hq.1, hp.1, fun a ha b hb he => (hmem a ha).2 (he ▸ hb)⟩, ?_⟩
  intro a ha
  rcases List.mem_append.mp ha with ha | ha
  · exact (hmem a ha).1
  · exact hp.2 a ha

/-- What a release passes to kfree. -/
def releaseFrees (net : Net) (v : Word) : List Word :=
  if (net.heap v).refcount - 1 ≠ 0 then [(net.heap v).rcvbuf] else [v, (net.heap v).rcvbuf]

omit h in
theorem mem_releaseFrees {b : Word} (h : b ∈ releaseFrees net v) :
    b = (net.heap v).rcvbuf ∨ b = v ∧ (net.heap v).refcount - 1 = 0 := by
  unfold releaseFrees at h
  split_ifs at h with hz
  · exact .inl (List.mem_singleton.mp h)
  · rcases List.mem_cons.mp h with h | h
    · exact .inr ⟨h, not_not.mp hz⟩
    · exact .inl (List.mem_singleton.mp h)

omit h in
theorem refcount_pred {c : Word} (h : 1 ≤ c.toNat) : (c - 1).toNat = c.toNat - 1 := by
  bv_omega

/-- The release of a closed socket: its buffer goes, and its struct when no slot is left. -/
theorem Sound.released (hrel : Released net net' ss v) (hino : (net.heap v).inode = 0) :
    FreedFrom blocks (releaseFrees net v) ∧
      Sound k net' (blocks \ (releaseFrees net v).toFinset) (ss.erase v) := by
  have hv : Uses k net ss v := .inr hrel.mem
  have hcount := h.kernelRef v hv
  have hpred := refcount_pred (c := (net.heap v).refcount) (by omega)
  -- with the last reference no slot is left
  have hlast : (net.heap v).refcount - 1 = 0 → k.holders v = ∅ := by
    intro hz
    rw [hz] at hpred
    refine Finset.card_eq_zero.mp ?_
    change 0 = _ at hpred
    omega
  have hvE : v ∉ ss.erase v := h.listed.nodup.not_mem_erase
  have hmem : ∀ s, (net'.heap s).inode = (net.heap s).inode ∧
      (net'.heap s).rcvbuf = (net.heap s).rcvbuf := by
    intro s
    by_cases hs : s = v
    · subst hs
      have ht := hrel.target
      simp only [memory, Prod.mk.injEq] at ht
      exact ht.2
    · exact (memory_eq (hrel.others s hs)).2
  have huses : ∀ s, Uses k net' (ss.erase v) s → Uses k net ss s ∧ s ≠ v := by
    intro s hs
    rcases hs with ⟨h0, hh, hi⟩ | hs
    · rw [(hmem s).1] at hi
      exact ⟨.inl ⟨h0, hh, hi⟩, fun he => hi (he ▸ hino)⟩
    · exact ⟨.inr (List.mem_of_mem_erase hs), fun he => hvE (he ▸ hs)⟩
  have hrefers : ∀ s, Refers k (ss.erase v) s → Refers k ss s ∧
      ((net.heap v).refcount - 1 = 0 → s ≠ v) := by
    intro s hs
    rcases hs with ⟨h0, hh⟩ | hs
    · refine ⟨.inl ⟨h0, hh⟩, fun hz he => ?_⟩
      rw [he, hlast hz] at hh
      exact Finset.not_nonempty_empty hh
    · exact ⟨.inr (List.mem_of_mem_erase hs), fun _ he => hvE (he ▸ hs)⟩
  have hkept : ∀ b ∈ blocks, b ≠ (net.heap v).rcvbuf →
      ((net.heap v).refcount - 1 = 0 → b ≠ v) → b ∈ blocks \ (releaseFrees net v).toFinset := by
    intro b hb h1 h2
    refine Finset.mem_sdiff.mpr ⟨hb, fun hf => ?_⟩
    rcases mem_releaseFrees (List.mem_toFinset.mp hf) with he | ⟨he, hz⟩
    · exact h1 he
    · exact h2 hz he
  have hrc : ∀ s, s ≠ v → (net'.heap s).refcount = (net.heap s).refcount := fun s hs =>
    (memory_eq (hrel.others s hs)).1
  have hrcv : (net'.heap v).refcount = (net.heap v).refcount - 1 := by
    have ht := hrel.target
    simp only [memory, Prod.mk.injEq] at ht
    exact ht.1
  have hsound : Sound k net' blocks (ss.erase v) := by
    refine h.transfer hrel.listed hrel.links (fun s hs => (hrefers s hs).1)
      (fun s hs => (huses s hs).1) (fun s => (hmem s).2) (fun s hs => ?_) (fun s hs => ?_)
    · by_cases hsv : s = v
      · subst hsv
        rw [hrcv, hpred]
        omega
      · rw [hrc s hsv]
        exact h.counts s hs
    · obtain ⟨hs', hsv⟩ := huses s hs
      rw [hrc s hsv]
      exact h.kernelRef s hs'
  refine ⟨⟨?_, fun b hb => ?_⟩,
    { hsound with structs := fun s hs => ?_, buffers := fun s hs => ?_ }⟩
  · have hne := h.mixed v v hv (.inr hrel.mem)
    unfold releaseFrees
    split_ifs
    · simp
    · simpa using hne.symm
  · rcases mem_releaseFrees hb with rfl | ⟨rfl, -⟩
    · exact h.buffers v hv
    · exact h.structs _ (.inr hrel.mem)
  · obtain ⟨hs', hz⟩ := hrefers s hs
    exact hkept s (h.structs s hs') (h.mixed v s hv hs').symm hz
  · obtain ⟨hs', hsv⟩ := huses s hs
    rw [(hmem s).2]
    exact hkept _ (h.buffers s hs') (h.apart s v hs' hv hsv)
      (fun _ => h.mixed s v hs' (.inr hrel.mem))

omit h in
/-- All that a segment frees, from the first release to the last. -/
theorem Sound.frees (hf : Frees net ss net' ss') :
    ∀ {blocks : Finset Word}, Sound k net blocks ss →
    ∃ ps, net'.freed = ps ++ net.freed ∧ FreedFrom blocks ps ∧
      Sound k net' (blocks \ ps.toFinset) ss' := by
  induction hf with
  | untouched hu =>
    intro blocks h
    exact ⟨[], hu.freed, ⟨List.nodup_nil, by simp⟩, by simpa using h.untouched hu⟩
  | released hv hrel =>
    intro blocks h
    obtain ⟨hfrom, hs⟩ := h.released hrel hv
    exact ⟨_, hrel.freed, hfrom, hs⟩
  | trans _ _ ih ih' =>
    intro blocks h
    obtain ⟨ps, hp, hfrom, hs⟩ := ih h
    obtain ⟨qs, hq, hfrom', hs'⟩ := ih' hs
    refine ⟨qs ++ ps, by rw [hq, hp, List.append_assoc], hfrom.append hfrom', ?_⟩
    rwa [List.toFinset_append, Finset.union_comm, ← Finset.sup_eq_union, ← sdiff_sdiff_left]

/-- The first close of a socket: one slot less, one reference less, and no inode. -/
theorem Sound.drop (hp : p < k.procs) (h0 : k.fds p i ≠ 0) (hi : (net.heap (k.fds p i)).inode ≠ 0)
    (hl : Listed net' ss) (hk : Links net' ss)
    (hother : ∀ a, a ≠ k.fds p i → memory (net'.heap a) = memory (net.heap a))
    (hf : memory (net'.heap (k.fds p i)) =
      ((net.heap (k.fds p i)).refcount - 1, 0, (net.heap (k.fds p i)).rcvbuf)) :
    Sound (k.setFd p i 0) net' blocks ss ∧ (net'.heap (k.fds p i)).refcount ≠ 0 := by
  simp only [memory, Prod.mk.injEq] at hf
  obtain ⟨hrc, hino, hbuf⟩ := hf
  have hheld : (k.holders (k.fds p i)).Nonempty := holders_nonempty hp rfl
  have hcount := h.kernelRef _ (.inl ⟨h0, hheld, hi⟩)
  have hpred := refcount_pred (c := (net.heap (k.fds p i)).refcount) (by omega)
  have hcard := holders_card_drop hp rfl h0
  have hsub : ∀ s, s ≠ 0 → (k.setFd p i 0).holders s ⊆ k.holders s := fun s hs =>
    holders_setFd_subset hs.symm
  have hbufs : ∀ s, (net'.heap s).rcvbuf = (net.heap s).rcvbuf := by
    intro s
    by_cases hs : s = k.fds p i
    · rw [hs, hbuf]
    · exact (memory_eq (hother s hs)).2.2
  have hrefers : ∀ s, Refers (k.setFd p i 0) ss s → Refers k ss s := fun s hs =>
    hs.imp (fun hs => ⟨hs.1, hs.2.mono (hsub s hs.1)⟩) id
  have huses : ∀ s, Uses (k.setFd p i 0) net' ss s → Uses k net ss s := by
    intro s hs
    rcases hs with ⟨hs0, hh, hn⟩ | hs
    · refine .inl ⟨hs0, hh.mono (hsub s hs0), ?_⟩
      by_cases he : s = k.fds p i
      · rw [he] at hn
        exact absurd hino hn
      · exact (memory_eq (hother s he)).2.1 ▸ hn
    · exact .inr hs
  refine ⟨h.transfer hl hk hrefers huses hbufs (fun s hs => ?_) (fun s hs => ?_), ?_⟩
  · by_cases he : s = k.fds p i
    · rw [he, hrc, hpred]
      omega
    · rw [(memory_eq (hother s he)).1]
      exact (Finset.card_le_card (hsub s hs)).trans (h.counts s hs)
  · have hk := h.kernelRef s (huses s hs)
    by_cases he : s = k.fds p i
    · rw [he, hrc, hpred]
      omega
    · have hle := Finset.card_le_card (hsub s (hs.ne_zero hl))
      rw [(memory_eq (hother s he)).1]
      omega
  · intro hz
    rw [hrc] at hz
    rw [hz] at hpred
    change 0 = _ at hpred
    omega

/-- One more slot with a socket that some slot holds, and one more reference. -/
theorem Sound.share (hp : p < k.procs) (hheld : (k.holders f).Nonempty)
    (hroom : (net.heap f).refcount.toNat + 1 < 2 ^ 32) :
    Sound (k.setFd p i f) (net.modify f (fun s => { s with refcount := s.refcount + 1 }))
      blocks ss := by
  obtain ⟨hl, hk⟩ := listed_modify (v := f) h.listed h.links
    (f := fun s => { s with refcount := s.refcount + 1 }) (fun _ => rfl)
  have hsame := modify_heap_same net f (fun s => { s with refcount := s.refcount + 1 })
  have hother := fun a => modify_heap_other net f a (fun s => { s with refcount := s.refcount + 1 })
  generalize net.modify f _ = net' at *
  have hu : ∀ s, (net'.heap s).inode = (net.heap s).inode ∧
      (net'.heap s).rcvbuf = (net.heap s).rcvbuf := by
    intro s
    by_cases hs : s = f
    · rw [hs, hsame]
      exact ⟨rfl, rfl⟩
    · rw [hother s hs]
      exact ⟨rfl, rfl⟩
  have hmono : ∀ s, ((k.setFd p i f).holders s).Nonempty → (k.holders s).Nonempty := by
    intro s hs
    by_cases hfs : f = s
    · exact hfs ▸ hheld
    · exact hs.mono (holders_setFd_subset hfs)
  have huses : ∀ s, Uses (k.setFd p i f) net' ss s → Uses k net ss s := fun s hs =>
    hs.imp (fun hs => ⟨hs.1, hmono s hs.2.1, (hu s).1 ▸ hs.2.2⟩) id
  -- the slot count and the reference count of `f` grow together
  have hcount : ∀ s n, (k.holders s).card + n ≤ (net.heap s).refcount.toNat →
      ((k.setFd p i f).holders s).card + n ≤ (net'.heap s).refcount.toNat := by
    intro s n hle
    by_cases hfs : f = s
    · subst hfs
      have hcard := Finset.card_insert_le (p, i) (k.holders f)
      have hsucc := refcount_succ hroom
      rw [holders_setFd_of_eq hp, hsame]
      simp only [hsucc]
      omega
    · have hcard := Finset.card_le_card (holders_setFd_subset (k := k) (p := p) (i := i) hfs)
      rw [hother s (fun he => hfs he.symm)]
      omega
  exact h.transfer hl hk (fun s hs => hs.imp (fun hs => ⟨hs.1, hmono s hs.2⟩) id) huses
    (fun s => (hu s).2) (fun s hs => hcount s 0 (h.counts s hs))
    (fun s hs => hcount s 1 (h.kernelRef s (huses s hs)))

/-- The blocks kmalloc returns for a new socket are free and inside the address space. -/
structure Supply (blocks : Finset Word) (f rcvbuf : Word) : Prop where
  struct : f ∉ blocks
  buffer : rcvbuf ∉ blocks
  apart : f ≠ rcvbuf
  ne_zero : f ≠ 0
  field : f + listOffset ≠ 0

theorem Sound.fresh {rcvbuf inode : Word} (hs : Supply blocks f rcvbuf)
    (hh : ∀ s, s ≠ 0 → s ≠ f → k'.holders s ⊆ k.holders s) (hf : (k'.holders f).card ≤ 1) :
    Sound k' (net.modify f (fun stale => newSocket stale inode rcvbuf))
      (insert f (insert rcvbuf blocks)) ss := by
  have hnot : ¬ Refers k ss f := fun hr => hs.struct (h.structs f hr)
  have hfss : f ∉ ss := fun hm => hnot (.inr hm)
  have hother : ∀ s, s ≠ f →
      (net.modify f (fun stale => newSocket stale inode rcvbuf)).heap s = net.heap s :=
    fun s hsf => modify_heap_other _ _ _ _ hsf
  have hnew : (net.modify f (fun stale => newSocket stale inode rcvbuf)).heap f =
      newSocket (net.heap f) inode rcvbuf := modify_heap_same _ _ _
  have hlisted : Listed (net.modify f (fun stale => newSocket stale inode rcvbuf)) ss :=
    ⟨chain_congr h.listed.chain (fun s hm => by rw [hother s (fun he => hfss (he ▸ hm))]),
      h.listed.nodup, h.listed.fields⟩
  generalize net.modify f (fun stale => newSocket stale inode rcvbuf) = net' at *
  have hrefers : ∀ s, Refers k' ss s → s = f ∨ s ≠ f ∧ Refers k ss s := by
    intro s hr
    by_cases hsf : s = f
    · exact .inl hsf
    · exact .inr ⟨hsf, hr.imp (fun hr => ⟨hr.1, hr.2.mono (hh s hr.1 hsf)⟩) id⟩
  have huses : ∀ s, Uses k' net' ss s → s = f ∨ s ≠ f ∧ Uses k net ss s := by
    intro s hu
    by_cases hsf : s = f
    · exact .inl hsf
    · refine .inr ⟨hsf, hu.imp (fun hu => ⟨hu.1, hu.2.1.mono (hh s hu.1 hsf), ?_⟩) id⟩
      exact hother s hsf ▸ hu.2.2
  have hbuf : (net'.heap f).rcvbuf = rcvbuf := by rw [hnew]; rfl
  have hrc : (net'.heap f).refcount = 2 := by rw [hnew]; rfl
  refine ⟨hlisted, fun s hm => ?_, fun s hr => ?_, fun s hr => ?_, fun s hu => ?_,
    fun s t hu ht hne => ?_, fun s t hu hr => ?_, fun s h0 => ?_, fun s hu => ?_⟩
  · rw [hother s (fun he => hfss (he ▸ hm))]
    exact h.links s hm
  · rcases hrefers s hr with rfl | ⟨-, hr⟩
    · exact Finset.mem_insert_self _ _
    · exact Finset.mem_insert_of_mem (Finset.mem_insert_of_mem (h.structs s hr))
  · rcases hrefers s hr with rfl | ⟨-, hr⟩
    · exact hs.field
    · exact h.fields s hr
  · rcases huses s hu with rfl | ⟨hsf, hu⟩
    · rw [hbuf]
      exact Finset.mem_insert_of_mem (Finset.mem_insert_self _ _)
    · rw [hother s hsf]
      exact Finset.mem_insert_of_mem (Finset.mem_insert_of_mem (h.buffers s hu))
  · rcases huses s hu with rfl | ⟨hsf, hu⟩ <;> rcases huses t ht with rfl | ⟨htf, ht⟩
    · exact absurd rfl hne
    · rw [hbuf, hother t htf]
      exact fun he => hs.buffer (he ▸ h.buffers t ht)
    · rw [hbuf, hother s hsf]
      exact fun he => hs.buffer (he ▸ h.buffers s hu)
    · rw [hother s hsf, hother t htf]
      exact h.apart s t hu ht hne
  · rcases huses s hu with rfl | ⟨hsf, hu⟩ <;> rcases hrefers t hr with rfl | ⟨htf, hr⟩
    · rw [hbuf]
      exact hs.apart.symm
    · rw [hbuf]
      exact fun he => hs.buffer (he ▸ h.structs t hr)
    · rw [hother s hsf]
      exact fun he => hs.struct (he ▸ h.buffers s hu)
    · rw [hother s hsf]
      exact h.mixed s t hu hr
  · by_cases hsf : s = f
    · rw [hsf, hrc]
      exact hf.trans (by decide)
    · rw [hother s hsf]
      exact (Finset.card_le_card (hh s h0 hsf)).trans (h.counts s h0)
  · have h0 := hu.ne_zero hlisted
    rcases huses s hu with rfl | ⟨hsf, hu⟩
    · rw [hrc]
      change _ ≤ 2
      omega
    · have hle := Finset.card_le_card (hh s h0 hsf)
      have hk := h.kernelRef s hu
      rw [hother s hsf]
      omega

end Moves

section Calls
variable {mac : Mac} {m m' : Machine} {ss : List Word} {p : Nat} {i : Fd} {freed : List Word}

/-- The invariant of the machine, for some list of open sockets. -/
def Machine.Sound (m : Machine) : Prop := ∃ ss, Sockets.Sound m.kernel m.net m.blocks ss

/-- What vfs_close does to a socket with an inode, apart from the state of its connection. -/
theorem closeSocket_effect {net : Net} {f : Word} (hl : Listed net ss) (hk : Links net ss) :
    let net1 := net.modify f (fun s => { s with refcount := s.refcount - 1 })
    let net' := (StateMachine.socketClose mac net1 f).modify f (fun s => { s with inode := 0 })
    Listed net' ss ∧ Links net' ss ∧
      (∀ a, a ≠ f → memory (net'.heap a) = memory (net.heap a)) ∧
      memory (net'.heap f) = ((net.heap f).refcount - 1, 0, (net.heap f).rcvbuf) := by
  intro net1 net'
  obtain ⟨hl1, hk1⟩ := listed_modify (v := f) hl hk
    (f := fun s => { s with refcount := s.refcount - 1 }) (fun _ => rfl)
  have hu := untouched_socketClose mac (v := f) hl1 hk1
  obtain ⟨hl', hk'⟩ := listed_modify (v := f) hu.listed hu.links
    (f := fun s => { s with inode := 0 }) (fun _ => rfl)
  refine ⟨hl', hk', fun a ha => ?_, ?_⟩
  · rw [modify_heap_other _ _ _ _ ha, hu.memory a, modify_heap_other _ _ _ _ ha]
  · have hm := hu.memory f
    rw [modify_heap_same] at hm
    simp only [memory, Prod.mk.injEq] at hm
    rw [modify_heap_same]
    exact Prod.ext hm.1 (Prod.ext rfl hm.2.2)

/-- One slot is cleared and no count is raised. -/
structure Dropped (m : Machine) (p : Nat) (i : Fd) (m' : Machine) : Prop where
  sound : m'.Sound
  procs : m'.kernel.procs = m.kernel.procs
  slots : ∀ j, j ≠ i → m'.kernel.fds p j = m.kernel.fds p j
  counts : ∀ a, (m'.net.heap a).refcount.toNat ≤ (m.net.heap a).refcount.toNat

/-- vfs_close through a slot and the slot cleared; the count does not become zero. -/
theorem drops_sound (h : m.Sound) (hp : p < m.kernel.procs) (h0 : m.kernel.fds p i ≠ 0) :
    Drops (sockets mac) (fun m' => Dropped m p i m' ∧
      (m'.net.heap (m.kernel.fds p i)).refcount ≠ 0) (fun _ => False) m p i := by
  obtain ⟨ss, h⟩ := h
  have hheld : (m.kernel.holders (m.kernel.fds p i)).Nonempty := holders_nonempty hp rfl
  have hpos := Finset.card_pos.mpr hheld
  have hle := h.counts _ h0
  have hrc : (m.net.heap (m.kernel.fds p i)).refcount ≠ 0 := by
    intro hz
    rw [hz] at hle
    change _ ≤ 0 at hle
    omega
  have hslots : ∀ j, j ≠ i → (m.kernel.setFd p i 0).fds p j = m.kernel.fds p j := fun j hj => by
    simp [Kernel.setFd, hj]
  change Ends _ (closeSocket mac m (m.kernel.fds p i))
  unfold closeSocket
  dsimp only
  split_ifs with hi hr
  · exact ⟨⟨⟨⟨ss, h.clear⟩, rfl, hslots, fun _ => le_rfl⟩, hrc⟩, fun _ => List.not_mem_nil⟩
  · exact ⟨⟨⟨⟨ss, h.clear⟩, rfl, hslots, fun _ => le_rfl⟩, hrc⟩, fun _ => List.not_mem_nil⟩
  · obtain ⟨hl, hk, hother, hf⟩ := closeSocket_effect (f := m.kernel.fds p i)
      h.listed h.links
    obtain ⟨hs, hne⟩ := h.drop hp h0 hi hl hk hother hf
    refine ⟨⟨⟨⟨ss, hs⟩, rfl, hslots, fun a => ?_⟩, hne⟩, fun _ => List.not_mem_nil⟩
    by_cases ha : a = m.kernel.fds p i
    · rw [ha]
      refine (congrArg (fun x => x.1.toNat) hf).trans_le ?_
      dsimp only
      rw [refcount_pred (by omega)]
      omega
    · exact (memory_eq (hother a ha)).1 ▸ le_rfl

variable (mac) in
theorem sysClose_sound (i : Fd) (h : m.Sound) (hp : p < m.kernel.procs) :
    Ends (fun r m' => Good (Dropped m p i) (fun _ => False) r.2 m')
      ((sockets mac).sysClose m p i) := by
  refine sysClose_rule ⟨h, rfl, fun _ _ => rfl, fun _ => le_rfl⟩ fun h0 => ?_
  exact (closeSlot_rule (drops_sound h hp h0) fun m' hm' hz => absurd hz hm'.2).mono
    fun r hg => ⟨hg.1.1, hg.2⟩

variable (mac) in
theorem sysDup2_sound {oldfd : Fd} (newfd : Int) (h : m.Sound) (hp : p < m.kernel.procs)
    (hroom : m.kernel.fds p oldfd ≠ 0 →
      (m.net.heap (m.kernel.fds p oldfd)).refcount.toNat + 1 < 2 ^ 32) :
    Ends (fun r m' => Good Machine.Sound (fun _ => False) r.2 m')
      ((sockets mac).sysDup2 m p oldfd newfd) := by
  refine sysDup2_slots h (fun j _ => sysClose_sound mac j h hp) fun j m₁ hd hne h0 => ?_
  obtain ⟨⟨ss, hs⟩, hprocs, hslots, hle⟩ := hd
  have hr : (m₁.net.heap (m.kernel.fds p oldfd)).refcount.toNat + 1 < 2 ^ 32 :=
    (Nat.add_le_add_right (hle _) 1).trans_lt (hroom h0)
  exact ⟨ss, hs.share (hprocs ▸ hp) (holders_nonempty (hprocs ▸ hp) (hslots oldfd hne)) hr⟩

variable (mac) in
theorem exitLoop_sound (is : List Fd) (h : m.Sound) (hp : p < m.kernel.procs) :
    Ends (Good (fun m' => m'.Sound ∧ p < m'.kernel.procs) (fun _ => False))
      ((sockets mac).exitLoop m p is) :=
  exitLoop_rule (fun _ _ hm h0 => (drops_sound hm.1 hm.2 h0).mono fun _ hg =>
    ⟨⟨hg.1.1.sound, hg.1.1.procs ▸ hm.2⟩, hg.2⟩) is ⟨h, hp⟩

theorem fork_sound (h : m.Sound) (hp : p < m.kernel.procs)
    (hroom : ∀ i, m.kernel.fds p i ≠ 0 →
      (m.net.heap (m.kernel.fds p i)).refcount.toNat + 256 < 2 ^ 32) :
    ((sockets mac).fork m p).Sound := by
  obtain ⟨ss, hs⟩ := h
  have hnew : Sockets.Sound (m.kernel.newProcess fun q =>
      if q = m.kernel.procs then m.kernel.cwd p else m.kernel.cwd q) m.net m.blocks ss :=
    hs.shrink hs.listed hs.links (fun _ hm => .inr hm)
      (fun s h0 => (holders_newProcess _ h0).subset) (fun _ => rfl) (fun _ hi => hi) (fun _ => rfl)
  have hne : p ≠ m.kernel.procs := hp.ne
  let J := fun (is : List Fd) (m' : Machine) => m'.Sound ∧
    m'.kernel.procs = m.kernel.procs + 1 ∧ ∀ j, m'.kernel.fds p j = m.kernel.fds p j ∧
      (m.kernel.fds p j ≠ 0 →
        (m'.net.heap (m.kernel.fds p j)).refcount.toNat + is.length < 2 ^ 32)
  unfold FileKind.fork
  refine (copyOpenResources_rule (J := J) ?_ ?_ ?_).1
  · rintro i is m' ⟨⟨ss', hs'⟩, hprocs, hslots⟩ h0
    change m'.kernel.fds p i ≠ 0 at h0
    have hr := (hslots i).2 ((hslots i).1 ▸ h0)
    rw [List.length_cons, ← (hslots i).1] at hr
    have hr1 : (m'.net.heap (m'.kernel.fds p i)).refcount.toNat + 1 < 2 ^ 32 := by omega
    have hp' : p < m'.kernel.procs := by omega
    have hchild : m.kernel.procs < m'.kernel.procs := by omega
    refine ⟨⟨ss', hs'.share hchild (holders_nonempty hp' rfl) hr1⟩, hprocs,
      fun j => ⟨(if_neg fun hc => hne hc.1).trans (hslots j).1, fun hj => ?_⟩⟩
    have hrj := (hslots j).2 hj
    rw [List.length_cons] at hrj
    change ((m'.net.modify (m'.kernel.fds p i) fun s => { s with refcount := s.refcount + 1 }).heap
      (m.kernel.fds p j)).refcount.toNat + is.length < 2 ^ 32
    by_cases hji : m.kernel.fds p j = m'.kernel.fds p i
    · rw [hji, modify_heap_same, refcount_succ (by omega)]
      omega
    · rw [modify_heap_other _ _ _ _ hji]
      omega
  · rintro i is m' ⟨⟨ss', hs'⟩, hprocs, hslots⟩ -
    refine ⟨⟨ss', hs'.clear⟩, hprocs,
      fun j => ⟨(if_neg fun hc => hne hc.1).trans (hslots j).1, fun hj => ?_⟩⟩
    have hrj := (hslots j).2 hj
    rw [List.length_cons] at hrj
    exact Nat.lt_of_succ_lt hrj
  · refine ⟨⟨ss, hnew⟩, rfl, fun j => ⟨if_neg hne, fun hj => ?_⟩⟩
    rw [List.length_finRange]
    exact hroom j hj

theorem sysSocket_sound {inode f rcvbuf : Word} (h : m.Sound) (hs : Supply m.blocks f rcvbuf) :
    (sysSocket m p inode f rcvbuf).Sound := by
  obtain ⟨ss, h⟩ := h
  have hnone : m.kernel.holders f = ∅ := by
    by_contra hne
    exact hs.struct (h.structs f (.inl ⟨hs.ne_zero, Finset.nonempty_iff_ne_empty.mpr hne⟩))
  refine ⟨ss, ?_⟩
  unfold sysSocket
  rcases newfd_cases (k := m.kernel) (p := p) (f := f) with hn | ⟨i, -, hn⟩
  · rw [hn]
    exact h.fresh hs (fun _ _ _ => Finset.Subset.refl _) (by rw [hnone]; simp)
  · rw [hn]
    refine h.fresh hs (fun s _ hsf => holders_setFd_subset (fun he => hsf he.symm)) ?_
    refine (Finset.card_le_card (t := {(p, i)}) fun x hx => ?_).trans (by simp)
    obtain ⟨hx1, hx2⟩ := mem_holders.mp hx
    by_contra hxp
    have hmem : x ∈ m.kernel.holders f := by
      refine mem_holders.mpr ⟨hx1, ?_⟩
      simp only [Kernel.setFd] at hx2
      rwa [if_neg (fun hc => hxp (Finset.mem_singleton.mpr (Prod.ext hc.1 hc.2)))] at hx2
    rw [hnone] at hmem
    exact absurd hmem (Finset.notMem_empty _)

theorem sysConnect_sound {destMac : Mac} {addr : SockaddrIn} (h : m.Sound)
    (hp : p < m.kernel.procs) (hc : sysConnect mac destMac m p i addr = .ok m') : m'.Sound := by
  unfold sysConnect at hc
  dsimp only at hc
  split_ifs at hc with h0
  · cases hc
    exact h
  · split at hc
    · cases hc
    · next net hr =>
      cases hc
      obtain ⟨ss, hs⟩ := h
      obtain ⟨hf0, hi⟩ := not_or.mp h0
      have hheld := holders_nonempty (k := m.kernel) hp (rfl : m.kernel.fds p i = _)
      have hu : Uses m.kernel m.net ss (m.kernel.fds p i) := .inl ⟨hf0, hheld, hi⟩
      obtain ⟨ss', hl, hk, hmem, hm, -⟩ := connect_spec hs.listed hs.links hf0
        (hs.fields _ hu.refers) hr
      refine ⟨ss', hs.shrink hl hk (fun s hm => ?_) (fun _ _ => Finset.Subset.refl _)
        (fun s => (memory_eq (hm s)).1) (fun s hn => (memory_eq (hm s)).2.1 ▸ hn)
        (fun s => (memory_eq (hm s)).2.2)⟩
      rcases hmem s hm with hm | rfl
      · exact .inr hm
      · exact hu

theorem sysRead_sound {count : Word} (h : m.Sound) (hr : sysRead m p i count = .ok m') :
    m'.Sound := by
  unfold sysRead at hr
  dsimp only at hr
  split_ifs at hr
  cases hr
  obtain ⟨ss, hs⟩ := h
  have hread (s : Socket) : (socketRead s count).2.next = s.next ∧
      memory (socketRead s count).2 = memory s ∧ (socketRead s count).2.ends = s.ends := by
    unfold socketRead
    dsimp only
    split_ifs <;> exact ⟨rfl, rfl, rfl⟩
  exact ⟨ss, hs.untouched (untouched_modify hs.listed hs.links (fun s => (hread s).1)
    (fun s => (hread s).2.1) (fun s => (hread s).2.2))⟩

theorem receive_sound {fr : Frame} (h : m.Sound) (hripe : Ripe m.net fr)
    (hr : receive mac m fr = .ok (freed, m')) : FreedFrom m.blocks freed ∧ m'.Sound := by
  unfold receive at hr
  split at hr
  · cases hr
  · next net hok =>
    obtain ⟨ss, hs⟩ := h
    obtain ⟨ss', hfrees⟩ := tcpHandleFrame_frees hs.listed hs.links hripe hok
    obtain ⟨ps, hp, hfrom, hs'⟩ := hs.frees hfrees
    have htake : net.freed.take (net.freed.length - m.net.freed.length) = ps := by
      rw [hp, List.length_append, Nat.add_sub_cancel, List.take_left]
    rw [htake] at hr
    cases hr
    exact ⟨hfrom, ss', hs'⟩

end Calls

/-- Descriptors that can be read and the list refer to allocated sockets with their buffers. -/
structure Safe (m : Machine) : Prop where
  descriptors : ∀ p i, p < m.kernel.procs → m.kernel.fds p i ≠ 0 →
    (m.net.heap (m.kernel.fds p i)).inode ≠ 0 →
    m.kernel.fds p i ∈ m.blocks ∧ (m.net.heap (m.kernel.fds p i)).rcvbuf ∈ m.blocks
  listed : ∀ s, Visits 0 (nextSocket m.net.heap) m.net.openSockets s →
    s ∈ m.blocks ∧ (m.net.heap s).rcvbuf ∈ m.blocks

theorem Machine.Sound.safe {m : Machine} (h : m.Sound) : Safe m := by
  obtain ⟨ss, h⟩ := h
  refine ⟨fun p i hp h0 hi => ?_, fun s hv => ?_⟩
  · have hu : Uses m.kernel m.net ss (m.kernel.fds p i) := .inl ⟨h0, holders_nonempty hp rfl, hi⟩
    exact ⟨h.structs _ hu.refers, h.buffers _ hu⟩
  · have hu : Uses m.kernel m.net ss s := .inr (h.listed.chain.mem_of_visits hv)
    exact ⟨h.structs _ hu.refers, h.buffers _ hu⟩

/-- kmalloc gives a new socket blocks that are free. -/
def Supplied (m : Machine) : Event → Prop
  | .socket _ _ f rcvbuf => Supply m.blocks f rcvbuf
  | _ => True

/-- Reference counts do not wrap, and segments that end connections come for closed sockets. -/
def Allowed (m : Machine) : Event → Prop
  | .dup2 p oldfd _ => m.kernel.fds p oldfd ≠ 0 →
      (m.net.heap (m.kernel.fds p oldfd)).refcount.toNat + 1 < 2 ^ 32
  | .fork p => ∀ i, m.kernel.fds p i ≠ 0 →
      (m.net.heap (m.kernel.fds p i)).refcount.toNat + 256 < 2 ^ 32
  | .segment fr => Ripe m.net fr
  | _ => True

theorem freedFrom_nil (blocks : Finset Word) : FreedFrom blocks [] := ⟨List.nodup_nil, by simp⟩

theorem nothing_freed {blocks : Finset Word} {m' : Machine} {freed : List Word}
    (h : Good Machine.Sound (fun _ => False) freed m') : FreedFrom blocks freed ∧ m'.Sound := by
  rw [List.eq_nil_iff_forall_not_mem.mpr h.2]
  exact ⟨freedFrom_nil _, h.1⟩

theorem step_sound {mac : Mac} {m m' : Machine} {e : Event} {freed : List Word} (h : m.Sound)
    (hs : Supplied m e) (hc : Allowed m e) (hok : step mac m e = .ok (freed, m')) :
    FreedFrom m.blocks freed ∧ m'.Sound := by
  unfold step at hok
  split_ifs at hok with hcaller
  have hp : ∀ p, e.caller = some p → p < m.kernel.procs := fun p he => by
    simpa [he] using hcaller
  cases e with
  | socket p inode f rcvbuf =>
    cases hok
    exact ⟨freedFrom_nil _, sysSocket_sound h hs⟩
  | connect p i destMac addr =>
    simp only [perform] at hok
    split at hok
    · cases hok
    · next m1 hcon =>
      cases hok
      exact ⟨freedFrom_nil _, sysConnect_sound h (hp p rfl) hcon⟩
  | dup2 p oldfd newfd =>
    have hdup := sysDup2_sound mac newfd.val h (hp p rfl) hc
    simp only [perform] at hok
    split at hok <;> rename_i hcl <;> rw [hcl] at hdup <;> cases hok
    exact nothing_freed hdup
  | fork p =>
    cases hok
    exact ⟨freedFrom_nil _, fork_sound h (hp p rfl) hc⟩
  | read p i count =>
    simp only [perform] at hok
    split at hok
    · cases hok
    · next m1 hread =>
      cases hok
      exact ⟨freedFrom_nil _, sysRead_sound h hread⟩
  | close p i =>
    have hclose := sysClose_sound mac i h (hp p rfl)
    simp only [perform] at hok
    split at hok <;> rename_i hcl <;> rw [hcl] at hclose <;> cases hok
    exact nothing_freed ⟨hclose.1.sound, hclose.2⟩
  | exit p =>
    have hexit := exitLoop_sound mac (List.finRange 256) h (hp p rfl)
    simp only [perform] at hok
    rw [hok] at hexit
    exact nothing_freed ⟨hexit.1.1, hexit.2⟩
  | segment fr => exact receive_sound h hc hok

/-- No sockets yet: no slot holds one and none is listed. -/
def NoSockets (m : Machine) : Prop := (∀ p i, m.kernel.fds p i = 0) ∧ m.net.openSockets = 0

theorem NoSockets.sound {m : Machine} (h : NoSockets m) : m.Sound := by
  have hnone : ∀ s, s ≠ 0 → m.kernel.holders s = ∅ := by
    intro s h0
    refine Finset.eq_empty_of_forall_notMem fun x hx => h0 ?_
    rw [← (mem_holders.mp hx).2, h.1]
  have hrefers : ∀ s, ¬ Refers m.kernel [] s := by
    intro s hr
    rcases hr with ⟨h0, hh⟩ | hm
    · rw [hnone s h0] at hh
      exact Finset.not_nonempty_empty hh
    · cases hm
  refine ⟨[], ⟨h.2, List.nodup_nil, by simp⟩, by simp [Links], fun s hs => absurd hs (hrefers s),
    fun s hs => absurd hs (hrefers s), fun s hs => absurd hs.refers (hrefers s),
    fun s t hs => absurd hs.refers (hrefers s), fun s t hs => absurd hs.refers (hrefers s),
    fun s h0 => ?_, fun s hs => absurd hs.refers (hrefers s)⟩
  rw [hnone s h0]
  simp

/-- In every interleaving of calls and segments whose steps are all `Allowed`: what is
freed is allocated, and no descriptor that can be read and no listed socket is left with
freed memory. -/
theorem socket_memory_safe (mac : Mac) (m : Machine) (events : List Event)
    (tr : List (Transition Machine Event (List Word))) (h0 : NoSockets m)
    (hr : run (step mac) m events = some tr) (hs : ∀ x ∈ tr, Supplied x.pre x.input)
    (hc : ∀ x ∈ tr, Allowed x.pre x.input) :
    ∀ x ∈ tr, FreedFrom x.pre.blocks x.output ∧ Safe x.post := by
  have hinv := run_invariant (I := Machine.Sound) (C := fun m e => Supplied m e ∧ Allowed m e)
    (fun _ _ _ _ hi hc hok => (step_sound hi hc.1 hc.2 hok).2) hr h0.sound
    (fun x hx => ⟨hs x hx, hc x hx⟩)
  intro x hx
  have hstep := step_sound (hinv x hx).1 (hs x hx) (hc x hx) (run_step hr x hx)
  exact ⟨hstep.1, hstep.2.safe⟩

/-- One process, and sockets in cleared memory. -/
def bootMachine : Machine where
  kernel := bareRoot
  net := ⟨fun _ => clearedSocket, 0, 0, [], []⟩
  blocks := ∅

theorem bootMachine_noSockets : NoSockets bootMachine := ⟨fun _ _ => rfl, rfl⟩

/-- The process opens a socket and connects it to port 80 of host 2. -/
def opening : List Event :=
  [.socket 0 0x500 0x3000 0x9000,
    .connect 0 0 (Vector.replicate 6 0) ⟨1, 80, 2, Vector.replicate 8 0⟩]

/-- A reset from that host for the port the kernel draws. -/
def reset : Frame :=
  Isolation.bareFrame ⟨2, 80, (synSegment (Vector.replicate 6 0) (Vector.replicate 6 0)
    ⟨1, 80, 2, Vector.replicate 8 0⟩ 0).tcp.portSrc⟩ { rst := true }

theorem opening_supplied {events : List Event} {tr : List (Transition Machine Event (List Word))}
    (hr : run (step (Vector.replicate 6 0)) bootMachine (opening ++ events) = some tr)
    (he : ∀ e ∈ events, ∀ m, Supplied m e) : ∀ x ∈ tr, Supplied x.pre x.input := by
  obtain ⟨o, m1, rest, -, hrest, rfl⟩ := run_cons hr
  intro x hx
  rcases List.mem_cons.mp hx with rfl | hx
  · exact ⟨Finset.notMem_empty _, Finset.notMem_empty _, by decide, by decide, by decide⟩
  · rcases List.mem_cons.mp (run_input hrest x hx) with hi | hi
    · rw [hi]
      exact trivial
    · exact he _ hi _

theorem socket_memory_safe_closed : ∃ tr, run (step (Vector.replicate 6 0)) bootMachine
    (opening ++ [.close 0 0, .segment reset]) = some tr ∧
    ∀ x ∈ tr, FreedFrom x.pre.blocks x.output ∧ Safe x.post := by
  refine run_test (fun tr => tr.map (fun x => (x.pre.net.openSockets,
    (x.pre.net.heap 0x3000#32).next, (x.pre.net.heap 0x3000#32).inode)) =
      [(0, 0, 0), (0, 0, 0x500), (0x3000, 0, 0x500), (0x3000, 0, 0)]) (by decide) ?_
  intro tr hr hvals
  refine socket_memory_safe _ _ _ tr bootMachine_noSockets hr
    (opening_supplied hr (by simp [Supplied])) ?_
  obtain ⟨o1, m1, tr1, -, hr1, rfl⟩ := run_cons hr
  obtain ⟨o2, m2, tr2, -, hr2, rfl⟩ := run_cons hr1
  obtain ⟨o3, m3, tr3, -, hr3, rfl⟩ := run_cons hr2
  obtain ⟨o4, m4, tr4, -, hr4, rfl⟩ := run_cons hr3
  rw [run_nil hr4] at hvals ⊢
  simp only [List.map_cons, List.map_nil, List.cons.injEq, Prod.mk.injEq, and_true] at hvals
  obtain ⟨-, -, -, hopen, hnext, hinode⟩ := hvals
  -- when the reset comes the socket is the only one, and closed
  have hripe : Ripe m3.net reset := by
    intro _ s hv _
    have hc : Chain 0 (nextSocket m3.net.heap) m3.net.openSockets [0x3000#32] :=
      ⟨hopen, by decide, by simp [nextSocket, hnext, Chain]⟩
    rw [List.mem_singleton.mp (hc.mem_of_visits hv)]
    exact ⟨hinode, fun _ => hnext⟩
  intro x hx
  simp only [List.mem_cons, List.not_mem_nil, or_false] at hx
  rcases hx with rfl | rfl | rfl | rfl
  · exact trivial
  · exact trivial
  · exact trivial
  · exact hripe

/-- A reset of an open connection frees the buffer of a socket that can still be read. -/
theorem reset_frees_open_buffer :
    ¬ ∀ (mac : Mac) (m : Machine) (events : List Event)
      (tr : List (Transition Machine Event (List Word))), NoSockets m →
      run (step mac) m events = some tr → (∀ x ∈ tr, Supplied x.pre x.input) →
      ∀ x ∈ tr, FreedFrom x.pre.blocks x.output ∧ Safe x.post := by
  intro h
  obtain ⟨tr, hr, x, hx, hprocs, hfd, hinode, hbuf, hfreed⟩ :
      ∃ tr ∈ run (step (Vector.replicate 6 0)) bootMachine (opening ++ [.segment reset]), ∃ x ∈ tr,
        x.post.kernel.procs = 1 ∧ x.post.kernel.fds 0 0 = 0x3000#32 ∧
        (x.post.net.heap 0x3000#32).inode = 0x500 ∧
        (x.post.net.heap 0x3000#32).rcvbuf = 0x9000#32 ∧
        0x9000#32 ∉ x.post.blocks := by decide
  have hsafe := (h _ _ _ tr bootMachine_noSockets hr
    (opening_supplied hr (by simp [Supplied])) x hx).2
  have hd := hsafe.descriptors 0 0 (by rw [hprocs]; decide) (by rw [hfd]; decide)
    (by rw [hfd, hinode]; decide)
  rw [hfd, hbuf] at hd
  exact hfreed hd.2

end TapiOS.Task.Sockets
