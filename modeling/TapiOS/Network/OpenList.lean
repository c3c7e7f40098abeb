import TapiOS.Lib.Runs
import TapiOS.Network.Connect
import TapiOS.Network.Isolation

/-!
# Which sockets the open list holds

`Book` adds to the kernel the sockets that were opened by `_connect` and not removed
since. `Tracks` says that the walk over `open_sockets` meets exactly those. Two steps
break it: taking out the first of several sockets, because `open_sockets` then points to
a list field, and connecting a listed socket again, because its link is cleared.
-/
namespace TapiOS.Network.OpenList

open Lib Util Network

/-- The addresses of the struct sockets, which lie apart in memory. -/
structure Placed (sockets : Set Word) : Prop where
  ne_zero : ∀ s ∈ sockets, s ≠ 0
  fits : ∀ s ∈ sockets, s.toNat + 56 ≤ 2 ^ 32
  apart : ∀ s ∈ sockets, ∀ t ∈ sockets, s ≠ t →
    s.toNat + 56 ≤ t.toNat ∨ t.toNat + 56 ≤ s.toNat

inductive Event where
  | connect (destMac : Mac) (s : Word) (addr : SockaddrIn)
  | remove (fr : Frame)

/-- The kernel and the sockets that are connecting or connected and not yet removed. -/
structure Book where
  net : Net
  live : List Word

/-- A connect that finds no socket with the remote port opens its socket. -/
def opened (b : Book) (s : Word) (addr : SockaddrIn) : List Word :=
  if b.net.find (takenTest b.net addr) = some 0 ∧ s ∉ b.live then b.live ++ [s] else b.live

def step (mac : Mac) (b : Book) : Event → Except Unit (Unit × Book)
  | .connect destMac s addr =>
    match connect mac destMac b.net s addr with
    | none => .error ()
    | some net => .ok ((), ⟨net, opened b s addr⟩)
  | .remove fr =>
    match tcpRemoveConnection b.net fr with
    | none => .error ()
    | some (v, net) => .ok ((), ⟨net, b.live.erase v⟩)

/-- The walk over open_sockets meets the live sockets, each once, and nothing else. -/
def Tracks (sockets : Set Word) (b : Book) : Prop :=
  ∃ ss, Listed b.net ss ∧ Links b.net ss ∧ (∀ s, s ∈ ss ↔ s ∈ b.live) ∧ ∀ s ∈ ss, s ∈ sockets

/-- The calls are made for sockets. -/
def ForSockets (sockets : Set Word) : Event → Prop
  | .connect _ s _ => s ∈ sockets
  | .remove _ => True

/-- A socket that is still live is connected again only when its call opens nothing or it
is the last of the list; the first of the list is removed only when it is the only one. -/
def KeepsList (b : Book) : Event → Prop
  | .connect _ s addr => (∃ t ∈ b.live, (b.net.heap t).saddr.sinPort = addr.sinPort) ∨
      s ∉ b.live ∨ (b.net.heap s).next = 0
  | .remove fr => b.net.openSockets ≠ 0 → removeTest b.net fr b.net.openSockets →
      (b.net.heap b.net.openSockets).next = 0

section Steps
variable {mac destMac : Mac} {sockets : Set Word} {b b' : Book} {ss : List Word} {s : Word}
  {addr : SockaddrIn} {fr : Frame}

theorem Placed.field_ne_zero (hp : Placed sockets) (hs : s ∈ sockets) : s + listOffset ≠ 0 := by
  have h := hp.fits s hs
  unfold listOffset
  bv_omega

theorem Placed.field_not_mem (hp : Placed sockets) (hs : s ∈ sockets) :
    s + listOffset ∉ sockets := by
  intro hm
  have h := hp.fits s hs
  have hadd : (s + listOffset).toNat = s.toNat + 52 := by
    unfold listOffset
    bv_omega
  have hne : s ≠ s + listOffset := by
    intro he
    rw [← he] at hadd
    omega
  have ha := hp.apart s hs _ hm hne
  omega

/-- A walk that ends meets one list of sockets only. -/
theorem Tracks.mem_iff (ht : Tracks sockets b) (h : Listed b.net ss) : ∀ s, s ∈ ss ↔ s ∈ b.live := by
  obtain ⟨ts, hl, -, hmem, -⟩ := ht
  intro s
  rw [← hmem]
  exact ⟨fun hs => hl.chain.mem_of_visits (h.chain.visits s hs),
    fun hs => h.chain.mem_of_visits (hl.chain.visits s hs)⟩

variable (addr) in
theorem taken_iff (h : Listed b.net ss) (hmem : ∀ s, s ∈ ss ↔ s ∈ b.live) :
    b.net.find (takenTest b.net addr) = some 0 ↔
      ¬ ∃ t ∈ b.live, (b.net.heap t).saddr.sinPort = addr.sinPort := by
  rw [h.find]
  cases hf : ss.find? (takenTest b.net addr) with
  | none =>
    rw [List.find?_eq_none] at hf
    refine ⟨fun _ => ?_, fun _ => rfl⟩
    intro ⟨t, ht, hp⟩
    exact hf t ((hmem t).mpr ht) (by simp [takenTest, hp])
  | some t =>
    have ht := List.mem_of_find?_eq_some hf
    have hp := List.find?_some hf
    refine ⟨fun h0 => absurd (Option.some.inj h0) (h.chain.ne_null t ht), fun hn => ?_⟩
    exact absurd ⟨t, (hmem t).mp ht, by simpa [takenTest] using hp⟩ hn

theorem listed_transmit {net : Net} (h : Listed net ss) (next : Word) (p : TcpPacket) :
    Listed (net.transmit next p) ss :=
  ⟨h.chain, h.nodup, h.fields⟩

theorem links_transmit {net : Net} (h : Links net ss) (next : Word) (p : TcpPacket) :
    Links (net.transmit next p) ss :=
  h

/-- A connect that opens a socket which is not listed puts it last; one that opens a
listed socket drops what is behind it. -/
theorem connect_tracks_iff {net' : Net} (hp : Placed sockets) (ht : Tracks sockets b)
    (hs : s ∈ sockets) (h : connect mac destMac b.net s addr = some net') :
    Tracks sockets ⟨net', opened b s addr⟩ ↔ KeepsList b (.connect destMac s addr) := by
  obtain ⟨ss, hl, hk, hmem, hin⟩ := ht
  have htaken := taken_iff addr hl hmem
  have hfind := hl.find (takenTest b.net addr)
  by_cases hfree : b.net.find (takenTest b.net addr) = some 0
  · have hnone := htaken.mp hfree
    by_cases hlive : s ∈ b.live
    · -- again: the list ends at `s`
      obtain ⟨xs, ys, rfl⟩ := List.append_of_mem ((hmem s).mpr hlive)
      obtain ⟨net1, hr, hl1, hk1⟩ := openConnection_again
        (synSegment mac destMac addr b.net.next) destMac addr hl hk
      simp only [connect, hfree, ↓reduceIte, hr, Option.some.injEq] at h
      have hopened : opened b s addr = b.live := by
        rw [opened, if_neg (fun hc => hc.2 hlive)]
      rw [← h, hopened]
      have hlast := hl.next_eq_zero_iff hk
      refine ⟨fun ht' => .inr (.inr (hlast.mpr ?_)), fun hc => ?_⟩
      · by_contra hne
        obtain ⟨y, hy⟩ := List.exists_mem_of_ne_nil ys hne
        have hylive : y ∈ b.live := (hmem y).mp (by simp [hy])
        have hy' := (ht'.mem_iff (listed_transmit hl1 _ _) y).mpr hylive
        have hnd := List.nodup_append.mp hl.nodup
        rcases List.mem_append.mp hy' with hx | hx
        · exact hnd.2.2 y hx y (by simp [hy]) rfl
        · rw [List.mem_singleton.mp hx] at hy
          exact (List.nodup_cons.mp hnd.2.1).1 hy
      · have hys : ys = [] := by
          rcases hc with hc | hc | hc
          · exact absurd hc hnone
          · exact absurd hlive hc
          · exact hlast.mp hc
        subst hys
        exact ⟨xs ++ [s], listed_transmit hl1 _ _, links_transmit hk1 _ _, hmem, hin⟩
    · obtain ⟨net1, hr, hl1, hk1⟩ := openConnection_fresh
        (synSegment mac destMac addr b.net.next) destMac addr hl hk (fun hm => hlive ((hmem s).mp hm))
        (hp.ne_zero s hs) (hp.field_ne_zero hs)
      simp only [connect, hfree, ↓reduceIte, hr, Option.some.injEq] at h
      have hopened : opened b s addr = b.live ++ [s] := by rw [opened, if_pos ⟨hfree, hlive⟩]
      rw [← h, hopened]
      refine ⟨fun _ => .inr (.inl hlive), fun _ => ⟨ss ++ [s], listed_transmit hl1 _ _,
        links_transmit hk1 _ _, ?_, ?_⟩⟩
      · intro t
        rw [List.mem_append, List.mem_append, hmem]
      · intro t hm
        rcases List.mem_append.mp hm with hm | hm
        · exact hin t hm
        · exact List.mem_singleton.mp hm ▸ hs
  · -- a listed socket has the remote port: nothing is opened
    have hsome : (ss.find? (takenTest b.net addr)).getD 0 ≠ 0 := by
      intro h0
      rw [h0] at hfind
      exact hfree hfind
    simp only [connect, hfind, hsome, ↓reduceIte, Option.some.injEq] at h
    have hopened : opened b s addr = b.live := by rw [opened, if_neg (fun hc => hfree hc.1)]
    rw [← h, hopened]
    refine ⟨fun _ => .inl ?_, fun _ => ⟨ss, listed_transmit hl _ _,
      links_transmit hk _ _, hmem, hin⟩⟩
    by_contra hn
    exact hfree (htaken.mpr hn)

/-- Any socket but the first is taken out cleanly, and the first one if it is alone. -/
theorem remove_tracks_iff {net' : Net} {v : Word} (hp : Placed sockets) (hd : b.live.Nodup)
    (ht : Tracks sockets b) (h : tcpRemoveConnection b.net fr = some (v, net')) :
    Tracks sockets ⟨net', b.live.erase v⟩ ↔ KeepsList b (.remove fr) := by
  obtain ⟨ss, hl, hk, hmem, hin⟩ := ht
  have herase : ∀ s, s ∈ ss.erase v ↔ s ∈ b.live.erase v := by
    intro s
    rw [hl.nodup.mem_erase_iff, hd.mem_erase_iff, hmem]
  cases hf : ss.find? (removeTest b.net fr) with
  | none =>
    rw [tcpRemoveConnection_none hl hf] at h
    obtain ⟨rfl, rfl⟩ := h
    have h0 : (0 : Word) ∉ b.live := fun hm => hl.chain.ne_null 0 ((hmem 0).mpr hm) rfl
    rw [List.erase_of_not_mem h0]
    refine ⟨fun _ hne htest => ?_, fun _ => ⟨ss, hl, hk, hmem, hin⟩⟩
    cases ss with
    | nil => exact absurd hl.chain hne
    | cons a rest =>
      rw [hl.chain.1] at htest
      rw [List.find?_cons_of_pos htest] at hf
      cases hf
  | some w =>
    have hwt := List.find?_some hf
    refine ⟨fun ht' hne htest => ?_, fun hc => ?_⟩
    · cases ss with
      | nil => exact absurd hl.chain hne
      | cons a rest =>
        have ha : b.net.openSockets = a := hl.chain.1
        rw [ha] at htest ⊢
        refine (hl.first_next_eq_zero_iff hk).mpr ?_
        by_contra hrest
        obtain ⟨c, rest, rfl⟩ := List.exists_cons_of_ne_nil hrest
        rw [tcpRemoveConnection_head hl htest, Option.some.injEq, Prod.mk.injEq] at h
        obtain ⟨rfl, rfl⟩ := h
        -- the list now starts at a list field
        obtain ⟨ts, hl', -, -, hin'⟩ := ht'
        have hc := hin c (by simp)
        have hopen : (b.net.heap a).next = c + listOffset := hl.next_eq
        cases ts with
        | nil => exact hp.field_ne_zero hc (hopen.symm.trans hl'.chain)
        | cons d ts =>
          have hd' : d = c + listOffset := hl'.chain.1.symm.trans hopen
          exact hp.field_not_mem hc (hd' ▸ hin' d (by simp))
    · obtain ⟨net1, hr, hl1, hk1⟩ := tcpRemoveConnection_clean hl hk hf (fun hh => by
        have hz := hc (by rw [hh]; exact hl.chain.ne_null w (List.mem_of_find?_eq_some hf))
          (by rw [hh]; exact hwt)
        rwa [hh] at hz)
      rw [hr, Option.some.injEq, Prod.mk.injEq] at h
      obtain ⟨rfl, rfl⟩ := h
      exact ⟨ss.erase w, hl1, hk1, herase, fun s hs => hin s (List.mem_of_mem_erase hs)⟩

theorem step_nodup {e : Event} (hd : b.live.Nodup) (h : step mac b e = .ok ((), b')) :
    b'.live.Nodup := by
  cases e with
  | connect destMac s addr =>
    simp only [step] at h
    split at h
    · cases h
    · obtain ⟨-, rfl⟩ := Prod.mk.inj (Except.ok.inj h)
      simp only [opened]
      split_ifs with hc
      · exact List.nodup_append.mpr ⟨hd, by simp, fun a ha c hc' he =>
          hc.2 (by rw [← List.mem_singleton.mp hc', ← he]; exact ha)⟩
      · exact hd
  | remove fr =>
    simp only [step] at h
    split at h
    · cases h
    · obtain ⟨-, rfl⟩ := Prod.mk.inj (Except.ok.inj h)
      exact hd.erase _

theorem step_tracks_iff {e : Event} (hp : Placed sockets) (hd : b.live.Nodup)
    (ht : Tracks sockets b) (hs : ForSockets sockets e) (h : step mac b e = .ok ((), b')) :
    Tracks sockets b' ↔ KeepsList b e := by
  cases e with
  | connect destMac s addr =>
    simp only [step] at h
    split at h
    · cases h
    · next net' hr =>
      obtain ⟨-, rfl⟩ := Prod.mk.inj (Except.ok.inj h)
      exact connect_tracks_iff hp ht hs hr
  | remove fr =>
    simp only [step] at h
    split at h
    · cases h
    · next v net' hr =>
      obtain ⟨-, rfl⟩ := Prod.mk.inj (Except.ok.inj h)
      exact remove_tracks_iff hp hd ht hr

end Steps

/-- For every run of connects and removals from a state in which the list is right: it
stays right after every step exactly when every step keeps it. -/
theorem open_list_tracked_iff (mac : Mac) (sockets : Set Word) (hp : Placed sockets) (b : Book)
    (events : List Event) (tr : List (Transition Book Event Unit)) (hd : b.live.Nodup)
    (ht : Tracks sockets b) (hr : run (step mac) b events = some tr)
    (hs : ∀ x ∈ tr, ForSockets sockets x.input) :
    (∀ x ∈ tr, Tracks sockets x.post) ↔ ∀ x ∈ tr, KeepsList x.pre x.input :=
  run_property_iff_under (I := fun b => b.live.Nodup) (K := fun _ e => ForSockets sockets e)
    (fun _ _ _ _ hd _ h => step_nodup hd h)
    (fun _ _ _ _ hd ht hs h => step_tracks_iff hp hd ht hs h) hr hd ht hs

/-- The two sockets of `Isolation.twoSockets`, both listed. -/
def twoListed : Book := ⟨Isolation.twoSockets, [0x1000, 0x2000]⟩

def twoPlaces : Set Word := {s | s = 0x1000 ∨ s = 0x2000}

theorem twoPlaces_placed : Placed twoPlaces := by
  refine ⟨?_, ?_, ?_⟩
  · intro s hs
    rcases hs with rfl | rfl <;> decide
  · intro s hs
    rcases hs with rfl | rfl <;> decide
  · intro s hs t ht hne
    rcases hs with rfl | rfl <;> rcases ht with rfl | rfl
    · exact absurd rfl hne
    · exact .inl (by decide)
    · exact .inr (by decide)
    · exact absurd rfl hne

theorem twoListed_tracks : Tracks twoPlaces twoListed := by
  refine ⟨[0x1000, 0x2000], Isolation.twoSockets_listed, ?_, fun _ => Iff.rfl, ?_⟩
  · intro s hs
    rcases List.mem_cons.mp hs with rfl | hs
    · decide
    · rw [List.mem_singleton.mp hs]
      decide
  · intro s hs
    rcases List.mem_cons.mp hs with rfl | hs
    · exact .inl rfl
    · exact .inr (List.mem_singleton.mp hs)

theorem open_list_tracked_second : ∃ tr, run (step (Vector.replicate 6 0)) twoListed
    [.remove (Isolation.bareFrame ⟨2, 80, 7⟩ {})] = some tr ∧ ∀ x ∈ tr, Tracks twoPlaces x.post := by
  have hrun : (run (step (Vector.replicate 6 0)) twoListed
      [.remove (Isolation.bareFrame ⟨2, 80, 7⟩ {})]).isSome := by decide
  obtain ⟨tr, hr⟩ := Option.isSome_iff_exists.mp hrun
  refine ⟨tr, hr, (open_list_tracked_iff _ _ twoPlaces_placed _ _ tr (by decide) twoListed_tracks hr
    (fun x hx => ?_)).mpr ?_⟩
  · rw [List.mem_singleton.mp (run_input hr x hx)]
    exact trivial
  · obtain ⟨o, t, rest, -, hrest, rfl⟩ := run_cons hr
    rw [run_nil hrest]
    intro x hx
    rw [List.mem_singleton.mp hx]
    have hother : removeTest twoListed.net (Isolation.bareFrame ⟨2, 80, 7⟩ {}) 0x1000 = false := by
      decide
    exact fun _ ht => absurd (hother.symm.trans ht) (by decide)

/-- Removing the first of two sockets: the walk goes on inside the second one. -/
theorem head_removal_loses_list :
    ¬ ∀ (mac : Mac) (sockets : Set Word) (b : Book) (events : List Event)
      (tr : List (Transition Book Event Unit)), Placed sockets → b.live.Nodup →
      Tracks sockets b → run (step mac) b events = some tr →
      (∀ x ∈ tr, ForSockets sockets x.input) → ∀ x ∈ tr, Tracks sockets x.post := by
  intro h
  obtain ⟨tr, hr, x, hx, hopen⟩ : ∃ tr ∈ run (step (Vector.replicate 6 0)) twoListed
      [.remove (Isolation.bareFrame ⟨1, 80, 5⟩ {})], ∃ x ∈ tr, x.post.net.openSockets = 0x2034 := by
    decide
  obtain ⟨ss, hl, -, -, hin⟩ := h _ _ _ _ tr twoPlaces_placed (by decide) twoListed_tracks hr
    (fun y hy => by
      rw [List.mem_singleton.mp (run_input hr y hy)]
      exact trivial) x hx
  cases ss with
  | nil => exact absurd (hopen.symm.trans hl.chain) (by decide)
  | cons a rest =>
    have ha : a = 0x2034 := hl.chain.1.symm.trans hopen
    rcases hin a (by simp) with he | he
    · exact absurd (ha.symm.trans he) (by decide)
    · exact absurd (ha.symm.trans he) (by decide)

end TapiOS.Network.OpenList
