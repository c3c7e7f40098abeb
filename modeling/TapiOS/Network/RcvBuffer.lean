import TapiOS.Lib.Runs
import TapiOS.Network.Tcp

/-!
# The receive buffer as a queue

`tcp_handle_frame` appends to `rcvbuf[0..pos)` and `socket_read` takes bytes from its
front. The moves of the remaining bytes are right only for some counts.
-/
namespace TapiOS.Network.RcvBuffer

open Lib Util Network

/-- How many more bytes the buffer takes. -/
def room (s : Socket) : Nat := TCP_RCVBUF_SIZE.toNat - s.pos.toNat

/-- The bytes waiting in the buffer. -/
def waiting (s : Socket) : List Byte := bytesAt s.buf 0#32 s.pos.toNat

variable {s : Socket}

theorem storeLoop_full {dp : Mem} {n : Nat} {i : Word}
    (h : ¬ s.pos < TCP_RCVBUF_SIZE) : storeLoop dp n i s = s := by
  induction n generalizing i with
  | zero => rfl
  | succ n ih => rw [storeLoop, if_neg h, ih]

theorem waiting_push (b : Byte) (h : s.pos < TCP_RCVBUF_SIZE) :
    waiting { s with buf := s.buf.set s.pos b, pos := s.pos + 1#32 } = waiting s ++ [b] := by
  have hpos : (s.pos + 1#32).toNat = s.pos.toNat + 1 := by bv_omega
  simp only [waiting, hpos, bytesAt_succ, BitVec.zero_add, BitVec.ofNat_toNat, BitVec.setWidth_eq,
    Mem.set_same]
  congr 1
  apply bytesAt_congr
  intro i hi
  apply Mem.set_other
  bv_omega

/-- The loop stores the bytes for which there is room, in order, and nothing else. -/
theorem storeLoop_spec (dp : Mem) (n : Nat) (i : Word) (s : Socket)
    (hpos : s.pos.toNat ≤ TCP_RCVBUF_SIZE.toNat) :
    ∃ buf pos, storeLoop dp n i s = { s with buf := buf, pos := pos } ∧
      pos.toNat = s.pos.toNat + min n (room s) ∧
      waiting { s with buf := buf, pos := pos } = waiting s ++ (bytesAt dp i n).take (room s) := by
  induction n generalizing i s with
  | zero => exact ⟨s.buf, s.pos, rfl, by simp, by simp [bytesAt]⟩
  | succ n ih =>
    by_cases h : s.pos < TCP_RCVBUF_SIZE
    · have hlt : s.pos.toNat < 131072 := h
      have hsucc : (s.pos + 1#32).toNat = s.pos.toNat + 1 := by bv_omega
      obtain ⟨buf, pos, hloop, hp, hw⟩ :=
        ih (i + 1#32) { s with buf := s.buf.set s.pos (dp i), pos := s.pos + 1#32 }
          (by change (s.pos + 1#32).toNat ≤ 131072; omega)
      have hroom : room s = (131072 - (s.pos.toNat + 1)) + 1 := by
        change 131072 - s.pos.toNat = _
        omega
      have hroom' : room { s with buf := s.buf.set s.pos (dp i), pos := s.pos + 1#32 } =
          131072 - (s.pos.toNat + 1) := by
        change 131072 - (s.pos + 1#32).toNat = _
        rw [hsucc]
      refine ⟨buf, pos, by rw [storeLoop, if_pos h, hloop], ?_, ?_⟩
      · rw [hp]
        change (s.pos + 1#32).toNat + _ = _
        omega
      · have hb : bytesAt dp i (n + 1) = dp i :: bytesAt dp (i + 1#32) n := by
          rw [Nat.add_comm, bytesAt_add]
          simp [bytesAt]
        rw [hw, hroom', hroom, hb, List.take_succ_cons, waiting_push _ h]
        simp
    · have hge : ¬ s.pos.toNat < 131072 := h
      have hroom : room s = 0 := by
        change 131072 - s.pos.toNat = 0
        omega
      rw [storeLoop_full h, hroom]
      exact ⟨s.buf, s.pos, rfl, by simp, by simp⟩

/-- A read changes nothing but the buffer and `pos`, which it lowers. -/
theorem socketRead_frame (s : Socket) (count : Word) :
    ∃ buf pos, (socketRead s count).2 = { s with buf := buf, pos := pos } ∧
      pos.toNat ≤ s.pos.toNat := by
  simp only [socketRead]
  split_ifs
  all_goals exact ⟨_, _, rfl, by bv_omega⟩

/-- What `socket_read` leaves in front: the bytes at offset `pos - count`, where the
ones at offset `count` would be next. -/
theorem socketRead_waiting {count : Word} (h0 : count ≠ 0#32) (hlt : count < s.pos)
    (hpos : s.pos.toNat ≤ TCP_RCVBUF_SIZE.toNat) :
    waiting (socketRead s count).2 =
      bytesAt s.buf (s.pos - count) (s.pos.toNat - count.toNat) := by
  have hp : s.pos.toNat ≤ 131072 := hpos
  have hn : ¬ s.pos < count := by bv_omega
  have hsub : (s.pos - count).toNat = s.pos.toNat - count.toNat := by bv_omega
  have hr : 0#32 < s.pos - count := by bv_omega
  have hne : s.pos - count ≠ 0#32 := by bv_omega
  simp only [socketRead, hn, ↓reduceIte, h0, hr, waiting, hsub, memmove, hne, memcpy]
  apply bytesAt_congr
  intro i hi
  have hc := @copyLoop_spec 0#32 (s.pos - count) (s.pos.toNat - count.toNat) 0 s.buf (by bv_omega) (by bv_omega) (by bv_omega) (BitVec.ofNat 32 i)
  simp only [BitVec.zero_add, BitVec.sub_zero] at hc ⊢
  rw [hc, if_pos]
  simp only [BitVec.toNat_ofNat]
  omega

/-- A socket with everything appended to its buffer and delivered from it. -/
structure Queue where
  sock : Socket
  appended : List Byte
  delivered : List Byte

/-- A payload of `n` bytes at `dp`, or a read. -/
inductive Event where
  | append (dp : Mem) (n : Word)
  | read (count : Word)

def step (q : Queue) : Event → Except Empty (Unit × Queue)
  | .append dp n => .ok ((),
      { q with
        sock := storeLoop dp n.toNat 0#32 q.sock
        appended := q.appended ++ (bytesAt dp 0#32 n.toNat).take (room q.sock) })
  | .read count => .ok ((),
      { q with
        sock := (socketRead q.sock count).2
        delivered := q.delivered ++ (socketRead q.sock count).1 })

def InBounds (q : Queue) : Prop := q.sock.pos.toNat ≤ TCP_RCVBUF_SIZE.toNat

def Fifo (q : Queue) : Prop := q.delivered ++ waiting q.sock = q.appended

/-- The bytes after the first `count` are those at offset `pos - count`. It holds when
nothing is left over and when as much is left over as is read. -/
def MovesRight (q : Queue) : Event → Prop
  | .append _ _ => True
  | .read count => count = 0#32 ∨ ∀ i < q.sock.pos.toNat - count.toNat,
      q.sock.buf (q.sock.pos - count + BitVec.ofNat 32 i) =
        q.sock.buf (count + BitVec.ofNat 32 i)

theorem step_inBounds (q : Queue) (e : Event) (o : Unit) (t : Queue) (hq : InBounds q)
    (h : step q e = .ok (o, t)) : InBounds t := by
  cases e with
  | append dp n =>
    cases h
    obtain ⟨buf, pos, hloop, hp, -⟩ := storeLoop_spec dp n.toNat 0#32 q.sock hq
    simp only [InBounds, hloop, hp, room] at hq ⊢
    omega
  | read count =>
    cases h
    obtain ⟨buf, pos, hread, hle⟩ := socketRead_frame q.sock count
    simp only [InBounds, hread] at hq ⊢
    omega

theorem step_fifo_iff (q : Queue) (e : Event) (o : Unit) (t : Queue) (hq : InBounds q)
    (hf : Fifo q) (h : step q e = .ok (o, t)) : Fifo t ↔ MovesRight q e := by
  cases e with
  | append dp n =>
    cases h
    obtain ⟨buf, pos, hloop, -, hw⟩ := storeLoop_spec dp n.toNat 0#32 q.sock hq
    simp only [MovesRight, iff_true, Fifo, hloop, hw]
    rw [← hf, List.append_assoc]
  | read count =>
    cases h
    simp only [MovesRight, Fifo]
    rw [← hf]
    by_cases h0 : count = 0#32
    · have hr : socketRead q.sock count = ([], q.sock) := by
        simp [socketRead, h0]
      rw [hr]
      simp [h0]
    by_cases hlt : count < q.sock.pos
    · have hl : count.toNat < q.sock.pos.toNat := hlt
      have hout : (socketRead q.sock count).1 = bytesAt q.sock.buf 0#32 count.toNat := by
        have hn : ¬ q.sock.pos < count := by bv_omega
        simp [socketRead, hn, h0]
      have hsplit : waiting q.sock = bytesAt q.sock.buf 0#32 count.toNat ++
          bytesAt q.sock.buf count (q.sock.pos.toNat - count.toNat) := by
        have ha := bytesAt_add q.sock.buf 0#32 count.toNat (q.sock.pos.toNat - count.toNat)
        rw [Nat.add_sub_cancel' hl.le] at ha
        simpa [waiting] using ha
      rw [hout, socketRead_waiting h0 hlt hq, hsplit, List.append_assoc, List.append_cancel_left_eq,
        List.append_cancel_left_eq]
      simp only [h0, false_or]
      exact ⟨bytesAt_inj, bytesAt_congr⟩
    · have hge : q.sock.pos.toNat ≤ count.toNat := by bv_omega
      have hall : (socketRead q.sock count).1 ++ waiting (socketRead q.sock count).2 =
          waiting q.sock := by
        by_cases heq : q.sock.pos < count
        · by_cases hp0 : q.sock.pos = 0#32
          · simp [socketRead, hp0]
          · simp [socketRead, heq, hp0, waiting, bytesAt]
        · obtain rfl : count = q.sock.pos := by bv_omega
          simp [socketRead, h0, waiting, bytesAt]
      rw [List.append_assoc, hall]
      simp only [true_iff]
      right
      intro i hi
      omega

/-- A new socket, nothing received. -/
def start (stale : Socket) (inode rcvbuf : Word) : Queue :=
  ⟨newSocket stale inode rcvbuf, [], []⟩

/-- In every run of appends and reads on a new socket the buffer is a queue within its
bounds exactly when every read moves the right bytes. -/
theorem rcvbuf_fifo_iff (stale : Socket) (inode rcvbuf : Word) (events : List Event)
    (tr : List (Transition Queue Event Unit))
    (hr : run step (start stale inode rcvbuf) events = some tr) :
    (∀ x ∈ tr, Fifo x.post ∧ InBounds x.post) ↔ (∀ x ∈ tr, MovesRight x.pre x.input) := by
  have hbound : InBounds (start stale inode rcvbuf) := by simp [InBounds, start, newSocket]
  have hfifo : Fifo (start stale inode rcvbuf) := by
    simp [Fifo, waiting, start, newSocket, bytesAt]
  have hinv := run_invariant (I := InBounds) (C := fun _ _ => True)
    (fun q e o t hq _ h => step_inBounds q e o t hq h) hr hbound (fun _ _ => trivial)
  rw [← run_property_iff step_inBounds step_fifo_iff hr hbound hfifo]
  exact ⟨fun h x hx => (h x hx).1, fun h x hx => ⟨h x hx, (hinv x hx).2⟩⟩

/-- Two appends with a read in between. -/
def evenReads : List Event := [.append (fun a => a.setWidth 8) 4, .read 2, .append (fun _ => 9) 1]

theorem rcvbuf_fifo_iff_evenReads :
    ∃ tr, run step (start clearedSocket 0 0) evenReads = some tr ∧
      ((∀ x ∈ tr, Fifo x.post ∧ InBounds x.post) ↔ (∀ x ∈ tr, MovesRight x.pre x.input)) := by
  obtain ⟨tr, htr⟩ := Option.isSome_iff_exists.mp
    (show (run step (start clearedSocket 0 0) evenReads).isSome = true from rfl)
  exact ⟨tr, htr, rcvbuf_fifo_iff clearedSocket 0 0 evenReads tr htr⟩

/-- Of the bytes 0, 1, 2 the first is read; the buffer then holds 2 and a stale byte. -/
theorem rcvbuf_loses_a_byte :
    ¬ ∀ (stale : Socket) (inode rcvbuf : Word) (events : List Event)
      (tr : List (Transition Queue Event Unit)),
      run step (start stale inode rcvbuf) events = some tr →
      ∀ x ∈ tr, Fifo x.post ∧ InBounds x.post := by
  intro h
  obtain ⟨tr, htr, x, hx, hwaiting, happended⟩ : ∃ tr ∈ run step (start clearedSocket 0 0)
      [.append (fun a => a.setWidth 8) 3, .read 1],
      ∃ x ∈ tr, x.post.delivered ++ waiting x.post.sock = [0, 2, 0] ∧
        x.post.appended = [0, 1, 2] := by decide
  have hf := (h clearedSocket 0 0 _ tr htr x hx).1
  rw [Fifo, hwaiting, happended] at hf
  exact absurd hf (by decide)

end TapiOS.Network.RcvBuffer
