import TapiOS.Lib.Runs
import TapiOS.Fs.Lookups
import TapiOS.Task.Descriptors

/-!
# Slots, and rules for the calls

How the set of slots that hold a file changes with one slot, and one rule for each call
that closes or copies slots: from what a single close, kfree or copy keeps to what the
call keeps. A call may stop, but the rules exclude the refcount PANIC.
-/
namespace TapiOS.Task

open Lib Util Fs Kernel

section Holders
variable {k : Kernel} {p : Nat} {i : Fd} {f g : Word}

theorem mem_holders {s : Nat × Fd} : s ∈ k.holders f ↔ s.1 < k.procs ∧ k.fds s.1 s.2 = f := by
  simp [holders]

theorem holders_setFd_of_eq (hp : p < k.procs) :
    (k.setFd p i f).holders f = insert (p, i) (k.holders f) := by
  ext ⟨q, j⟩
  simp only [mem_holders, setFd, Finset.mem_insert, Prod.mk.injEq]
  by_cases h : q = p ∧ j = i
  · simp [h, hp]
  · simp [h]

theorem holders_setFd_of_ne (h : f ≠ g) : (k.setFd p i f).holders g = (k.holders g).erase (p, i) := by
  ext ⟨q, j⟩
  simp only [mem_holders, setFd, Finset.mem_erase, Prod.mk.injEq, ne_eq]
  by_cases hs : q = p ∧ j = i
  · simp [hs, h]
  · simp [hs]

theorem holders_setFd_subset (h : f ≠ g) : (k.setFd p i f).holders g ⊆ k.holders g := by
  rw [holders_setFd_of_ne h]
  exact Finset.erase_subset _ _

theorem holders_card_drop (hp : p < k.procs) (hf : k.fds p i = f) (h0 : f ≠ 0) :
    ((k.setFd p i 0).holders f).card + 1 = (k.holders f).card := by
  rw [holders_setFd_of_ne h0.symm]
  exact Finset.card_erase_add_one (mem_holders.mpr ⟨hp, hf⟩)

theorem holders_setFd_vfs (v : Vfs) :
    (Kernel.setFd { k with vfs := v } p i f).holders g = (k.setFd p i f).holders g := rfl

theorem holders_nonempty (hp : p < k.procs) (hf : k.fds p i = f) : (k.holders f).Nonempty :=
  ⟨(p, i), mem_holders.mpr ⟨hp, hf⟩⟩

theorem holders_newProcess (cwd : Nat → Text) (hg : g ≠ 0) :
    (k.newProcess cwd).holders g = k.holders g := by
  ext ⟨q, j⟩
  simp only [mem_holders, Kernel.newProcess]
  by_cases hq : q = k.procs
  · rw [if_pos hq]
    exact ⟨fun hs => absurd hs.2.symm hg, fun hs => by have := hs.1; omega⟩
  · rw [if_neg hq]
    exact ⟨fun hs => ⟨by have := hs.1; omega, hs.2⟩, fun hs => ⟨by have := hs.1; omega, hs.2⟩⟩

theorem newfd_eq : (newfd k p f = (-1, k) ∧ ∀ i, k.fds p i ≠ 0) ∨
    ∃ i : Fd, k.fds p i = 0 ∧ newfd k p f = ((i.val : Int), k.setFd p i f) := by
  unfold newfd
  split
  · rename_i i hi
    have h := List.find?_some hi
    exact .inr ⟨i, of_decide_eq_true h, rfl⟩
  · rename_i hnone
    refine .inl ⟨rfl, fun i => ?_⟩
    have h := List.find?_eq_none.mp hnone i (List.mem_finRange i)
    simpa using h

theorem newfd_cases : (newfd k p f).2 = k ∨ ∃ i, k.fds p i = 0 ∧ (newfd k p f).2 = k.setFd p i f := by
  rcases newfd_eq (k := k) (p := p) (f := f) with ⟨he, -⟩ | ⟨i, h0, he⟩
  · exact .inl (by rw [he])
  · exact .inr ⟨i, h0, by rw [he]⟩

theorem setFd_same (h : k.fds p i = f) : k.setFd p i f = k := by
  have hfds : (k.setFd p i f).fds = k.fds := by
    funext q j
    by_cases hs : q = p ∧ j = i
    · simp [setFd, hs, h]
    · simp [setFd, hs]
  exact congrArg (fun fds => { k with fds := fds }) hfds

end Holders

theorem descriptor_error {fd : Int} {e : Stop} (h : descriptor fd = .error e) :
    e = .badDescriptor := by
  unfold descriptor at h
  split_ifs at h
  exact (Except.error.inj h).symm

theorem descriptor_val (i : Fd) : descriptor i.val = .ok i := by
  unfold descriptor
  rw [dif_pos (by omega)]
  rfl

theorem descriptor_toNat {fd : Int} {i : Fd} (h : descriptor fd = .ok i) : (i.val : Int) = fd := by
  unfold descriptor at h
  split_ifs at h
  cases h
  simp only
  omega

theorem refcount_succ {c : Word} (h : c.toNat + 1 < 2 ^ 32) : (c + 1).toNat = c.toNat + 1 := by
  change (c.toNat + 1) % 2 ^ 32 = _
  omega

/-- What a call leaves, or why it stopped; never the refcount PANIC. -/
def Ends {α σ : Type} (Q : α → σ → Prop) (r : Except Stop (α × σ)) : Prop :=
  Outcome (fun e => e ≠ .refcountZero) (fun x => Q x.1 x.2) r

section FileRules
variable {σ φ : Type} {F : FileKind σ φ} {I : σ → Prop} {G : φ → Prop} {k : σ} {p : Nat}

/-- The state is good and so is everything freed on the way. -/
def Good (I : σ → Prop) (G : φ → Prop) (freed : List φ) (k : σ) : Prop :=
  I k ∧ ∀ x ∈ freed, G x

/-- vfs_close of the file in a slot, and the slot cleared. -/
def Drops (F : FileKind σ φ) (I : σ → Prop) (G : φ → Prop) (k : σ) (p : Nat) (i : Fd) : Prop :=
  Ends (fun freed k' => Good I G freed (F.setFd k' p i 0)) (F.close k (F.fds k p i))

theorem exitLoop_rule (hclose : ∀ k i, I k → F.fds k p i ≠ 0 → Drops F I G k p i) (is : List Fd)
    (hk : I k) : Ends (Good I G) (F.exitLoop k p is) := by
  induction is generalizing k with
  | nil => exact ⟨hk, by simp⟩
  | cons i is ih =>
    simp only [FileKind.exitLoop]
    split_ifs with h0
    · exact ih hk
    have hc := hclose k i hk h0
    unfold Drops at hc
    split <;> rename_i hcl
    · rw [hcl] at hc
      exact hc
    · rw [hcl] at hc
      have hrest := ih hc.1
      split <;> rename_i hl
      · rw [hl] at hrest
        exact hrest
      · rw [hl] at hrest
        refine ⟨hrest.1, fun x hx => ?_⟩
        rcases List.mem_append.mp hx with hx | hx
        · exact hc.2 x hx
        · exact hrest.2 x hx

theorem closeSlot_rule {i : Fd} (hclose : Drops F I G k p i)
    (hfree : ∀ k', I (F.setFd k' p i 0) → F.refcount k' (F.fds k p i) = 0 →
      Outcome (fun e => e ≠ .refcountZero) (fun k' => I (F.setFd k' p i 0) ∧
        G (F.freed (F.fds k p i) (F.setFd k' p i 0))) (F.kfree k' (F.fds k p i))) :
    Ends (Good I G) (F.closeSlot k p i) := by
  simp only [FileKind.closeSlot]
  unfold Drops at hclose
  split <;> rename_i hcl
  · rw [hcl] at hclose
    exact hclose
  rw [hcl] at hclose
  obtain ⟨hi, hg⟩ := hclose
  split_ifs with h0
  · have hf := hfree _ hi h0
    split <;> rename_i hk <;> rw [hk] at hf
    · exact hf
    · refine ⟨hf.1, fun x hx => ?_⟩
      rcases List.mem_append.mp hx with hx | hx
      · exact hg x hx
      · rw [List.mem_singleton.mp hx]
        exact hf.2
  · exact ⟨hi, hg⟩

theorem sysClose_rule {i : Fd} (hk : I k)
    (hslot : F.fds k p i ≠ 0 → Ends (Good I G) (F.closeSlot k p i)) :
    Ends (fun r k' => Good I G r.2 k') (F.sysClose k p i) := by
  simp only [FileKind.sysClose]
  split_ifs with h0
  · exact ⟨hk, by simp⟩
  have hs := hslot h0
  split <;> rename_i hc
  · rw [hc] at hs
    exact hs
  · rw [hc] at hs
    exact hs

/-- dup2 closes the slot that it shares to; `D j` is what that leaves. -/
theorem sysDup2_slots {D : Fd → σ → Prop} {i : Fd} {newfd : Int} (hk : I k)
    (hclose : ∀ j, descriptor newfd = .ok j →
      Ends (fun r k' => Good (D j) G r.2 k') (F.sysClose k p j))
    (hshare : ∀ j k', D j k' → i ≠ j → F.fds k p i ≠ 0 → I (F.share k' p j (F.fds k p i))) :
    Ends (fun r k' => Good I G r.2 k') (F.sysDup2 k p i newfd) := by
  simp only [FileKind.sysDup2]
  split_ifs with h0 he
  · exact ⟨hk, by simp⟩
  · exact ⟨hk, by simp⟩
  split <;> rename_i hd
  · exact descriptor_error hd ▸ fun h => nomatch h
  rename_i j
  have hc := hclose j hd
  split <;> rename_i hs <;> rw [hs] at hc
  · exact hc
  · exact ⟨hshare j _ hc.1 (fun hij => he (hij ▸ descriptor_toNat hd)) h0, hc.2⟩

/-- copy_open_resources, slot by slot; `J is` holds while the slots `is` are left. -/
theorem copyOpenResources_rule {J : List Fd → σ → Prop} {child : Nat}
    (hshare : ∀ i is k, J (i :: is) k → F.fds k p i ≠ 0 →
      J is (F.share k child i (F.fds k p i)))
    (hnone : ∀ i is k, J (i :: is) k → F.fds k p i = 0 → J is (F.setFd k child i 0))
    (hk : J (List.finRange 256) k) : J [] (F.copyOpenResources k p child) := by
  unfold FileKind.copyOpenResources
  generalize List.finRange 256 = is at hk
  induction is generalizing k with
  | nil => exact hk
  | cons i is ih =>
    rw [List.foldl_cons]
    refine ih ?_
    split_ifs with h0
    · exact hshare i is k hk h0
    · exact hnone i is k hk (not_not.mp h0)

end FileRules

section Rules
variable {I : Kernel → Prop} {G : Freed → Prop} {k : Kernel} {p : Nat}

/-- kfree of a struct file ends no run in the refcount PANIC. -/
theorem files_kfree_rule {f : Word} (h : ∀ v, k.vfs.kfree f = .ok v → I { k with vfs := v }) :
    Outcome (fun e => e ≠ .refcountZero) I (files.kfree k f) := by
  rw [files_kfree]
  cases hk : k.vfs.kfree f with
  | error e => exact kfree_error hk ▸ fun he => nomatch he
  | ok v => exact h v hk

theorem shareFile_eq (i : Fd) (f : Word) : shareFile k p i f = Kernel.setFd { k with
    vfs := k.vfs.setFile f (fun x => { x with refcount := x.refcount + 1 }) } p i f := rfl

theorem sysDupFd_rule {fd : Fd} (arg : Nat) (hk : I k)
    (hdup : ∀ i : Fd, k.fds p i = 0 → Ends (fun r k' => Good I G r.2 k') (sysDup2 k p fd i.val)) :
    Ends (fun r k' => Good I G r.2 k') (sysDupFd k p fd arg) := by
  simp only [sysDupFd]
  split <;> rename_i hf
  · exact ⟨hk, by simp⟩
  rename_i i
  have h0 : k.fds p i = 0 := by
    have h := List.find?_some hf
    exact (of_decide_eq_true h).2
  have hd := hdup i h0
  split <;> rename_i hs
  · rw [hs] at hd
    exact hd
  · rw [hs] at hd
    exact hd

theorem fork_slots {J : List Fd → Kernel → Prop}
    (hshare : ∀ i is k', J (i :: is) k' → k'.fds p i ≠ 0 →
      J is (shareFile k' k.procs i (k'.fds p i)))
    (hnone : ∀ i is k', J (i :: is) k' → k'.fds p i = 0 → J is (k'.setFd k.procs i 0))
    (hk : J (List.finRange 256)
      (k.newProcess fun q => if q = k.procs then k.cwd p else k.cwd q)) : J [] (fork k p) := by
  unfold fork FileKind.fork
  exact copyOpenResources_rule hshare hnone hk

theorem fork_of_empty (hp : p < k.procs) (h : ∀ i, k.fds p i = 0) :
    fork k p = k.newProcess fun q => if q = k.procs then k.cwd p else k.cwd q := by
  refine fork_slots (J := fun _ k' => k' = k.newProcess _) ?_ ?_ rfl
  · intro i is k' hj h0
    subst hj
    exact absurd ((if_neg hp.ne).trans (h i)) h0
  · intro i is k' hj _
    subst hj
    exact setFd_same (if_pos rfl)

/-- A lookup of a call, which may stop but not in vfs_close. -/
abbrev Looks {α : Type} (Q : α → Vfs → Prop) (r : Except Stop (α × Vfs)) : Prop :=
  Outcome (fun e => e ≠ .refcountZero) (fun x => Q x.1 x.2) r

theorem openInstall_rule {d : Driver} {inode flags : Word} (hk : I k)
    (hfail : ∀ status v, vfsOpen d k.vfs inode flags = .ok ((0, status), v) →
      I { k with vfs := v })
    (hopen : ∀ f status v, vfsOpen d k.vfs inode flags = .ok ((f, status), v) → inode ≠ 0 →
      f ≠ 0 → I (newfd { k with vfs := v } p f).2) :
    Ends (fun _ k' => I k') (openInstall d k p inode flags) := by
  simp only [openInstall]
  split_ifs with h0
  · exact hk
  split <;> rename_i ho
  · unfold vfsOpen at ho
    split at ho
    · rename_i hm
      cases ho
      exact kmalloc_error hm ▸ fun hc => nomatch hc
    · dsimp only at ho
      split_ifs at ho
  · split_ifs with hf
    · subst hf
      exact hfail _ _ ho
    · exact hopen _ _ _ ho h0 hf

theorem sysOpen_rule {d : Driver} {path : Text} {flags : Word}
    (hplan : Looks (fun r v => match r with
      | .fail _ => I { k with vfs := v }
      | .node inode => Ends (fun _ k' => I k') (openInstall d { k with vfs := v } p inode flags)
      | .create dir => Looks (fun inode v => Ends (fun _ k' => I k')
          (openInstall d { k with vfs := v } p inode flags)) (vfsNewInode d v dir path 0x8000))
      (openPlan d k p path flags)) :
    Ends (fun _ k' => I k') (sysOpen d k p path flags) := by
  unfold sysOpen
  split <;> rename_i he <;> rw [he] at hplan
  · exact hplan
  · exact hplan
  · exact hplan
  · simp only [Outcome] at hplan
    split <;> rename_i hn <;> rw [hn] at hplan <;> exact hplan

/-- One call, from what holds after its part on the tables. -/
theorem step_rule {c : Call} (hk : I k)
    (hsearch : ∀ d supply path, c = .search d supply path →
      Looks (fun _ v => I { k.withSupply supply with vfs := v })
        (vfsSearch d (k.withSupply supply).vfs k.vfs.rootFs path))
    (hopen : ∀ d supply p path flags, c = .openFile d supply p path flags → p < k.procs →
      Ends (fun _ k' => I k') (sysOpen d (k.withSupply supply) p path flags))
    (hdup2 : ∀ p oldfd newfd i, c = .dup2 p oldfd newfd → p < k.procs →
      descriptor oldfd = .ok i → Ends (fun r k' => Good I G r.2 k') (sysDup2 k p i newfd))
    (hdupFd : ∀ p fd arg i j, c = .dupFd p fd arg → p < k.procs → descriptor fd = .ok i →
      k.fds p j = 0 → Ends (fun r k' => Good I G r.2 k') (sysDup2 k p i j.val))
    (hfork : ∀ p, c = .fork p → p < k.procs → I (fork k p))
    (hclose : ∀ p fd i, c = .close p fd → p < k.procs → descriptor fd = .ok i →
      Ends (fun r k' => Good I G r.2 k') (sysClose k p i))
    (hexit : ∀ p, c = .exit p → p < k.procs → Ends (Good I G) (sysExit k p)) :
    Ends (fun r k' => Good I G r.freed k') (step k c) := by
  unfold step
  split_ifs with hcaller
  · exact fun hc => nomatch hc
  cases c with
  | search d supply path =>
    simp only [perform]
    have hs := hsearch d supply path rfl
    split <;> rename_i he <;> rw [show vfsSearch d (k.withSupply supply).vfs k.vfs.rootFs path = _
      from he] at hs
    · exact hs
    · exact ⟨hs, by simp⟩
  | openFile d supply p path flags =>
    have hs := hopen d supply p path flags rfl (by simpa [Call.caller] using hcaller)
    simp only [perform]
    split <;> rename_i he <;> rw [he] at hs
    · exact hs
    · exact ⟨hs, by simp⟩
  | dup2 p oldfd newfd =>
    simp only [perform]
    split <;> rename_i hd
    · exact descriptor_error hd ▸ fun hc => nomatch hc
    have hs := hdup2 p oldfd newfd _ rfl (by simpa [Call.caller] using hcaller) hd
    split <;> rename_i he <;> rw [he] at hs <;> exact hs
  | dupFd p fd arg =>
    simp only [perform]
    split <;> rename_i hd
    · exact ⟨hk, by simp⟩
    split
    · exact fun hc => nomatch hc
    have hs := sysDupFd_rule arg.toNat hk
      fun j h0 => hdupFd p fd arg _ j rfl (by simpa [Call.caller] using hcaller) hd h0
    split <;> rename_i he <;> rw [he] at hs <;> exact hs
  | fork p =>
    simp only [perform, Ends, Outcome]
    exact ⟨hfork p rfl (by simpa [Call.caller] using hcaller), by simp⟩
  | close p fd =>
    simp only [perform]
    split <;> rename_i hd
    · exact descriptor_error hd ▸ fun hc => nomatch hc
    have hs := hclose p fd _ rfl (by simpa [Call.caller] using hcaller) hd
    split <;> rename_i he <;> rw [he] at hs <;> exact hs
  | exit p =>
    have hs := hexit p rfl (by simpa [Call.caller] using hcaller)
    simp only [perform]
    split <;> rename_i he <;> rw [he] at hs <;> exact hs

end Rules
end TapiOS.Task
