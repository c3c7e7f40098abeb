import TapiOS.Fs.Ext2Isolation

/-!
# Inode allocation

The inode number that ext2_new_inode gives out is one more than the index of a bit within
one word of one group's bitmap. Under the condition of the block isolation results this is
the inode whose bit was set.
-/
namespace TapiOS.Fs.Ext2

open Util Lib

/-- The bit that stands for an inode. -/
def Layout.inodeMarked (L : Layout) (m : Mem) (n : Nat) : Bool :=
  L.inodeBit m (L.inodeGroup n) (L.inodeIndex n)

/-- The call takes one inode, which was free; a number it gives out is that inode's. No other
inode's bit or record changes. -/
def InodeFresh (L : Layout) (x : Transition Mem Call Answer) : Prop :=
  ∃ n : Nat, (∀ i, x.output.inodeNo = some i → i = (n : Int)) ∧ L.IsInode n ∧
    L.inodeMarked x.pre n = false ∧ L.inodeMarked x.post n ∧
    ∀ n', L.IsInode n' → n' ≠ n → L.inodeMarked x.post n' = L.inodeMarked x.pre n' ∧
      Set.EqOn x.post x.pre (L.zone (.record n'))

section Step
variable {L : Geometry} {m m' : Mem} (hc : Consistent L m)
include hc

theorem Creates.fresh (hp : Plain L) {n d : Nat} (ha : Creates L m m' n d) :
    L.IsInode n ∧ L.inodeMarked m n = false ∧ L.inodeMarked m' n ∧
      ∀ n', L.IsInode n' → n' ≠ n → L.inodeMarked m' n' = L.inodeMarked m n' ∧
        Set.EqOn m' m (L.zone (.record n')) := by
  obtain ⟨hn, -, -, hdead⟩ := ha.inode hc
  have hlive := (ha.live_iff hc hp n).mpr (.inr rfl)
  refine ⟨hn, ?_, hlive.2, fun n' hn' hne => ⟨?_, ha.keeps hc hp hn' (by simp [hne])⟩⟩
  · by_contra h
    exact hdead ⟨hn, Bool.eq_true_of_not_eq_false h⟩
  · have hiff := ha.live_iff hc hp n'
    simp only [Layout.Live, hn', true_and, hne, or_false] at hiff
    exact Bool.eq_iff_iff.mpr hiff

theorem newInode_fresh {dir : Word} {path : Text} {flags : Word} {r : NewInode}
    (hv : (Call.newInode dir path flags).Proper L m)
    (ha : (Call.newInode dir path flags).Allowed L m)
    (h : ext2NewInode m L.sb dir path flags = .ok (r, m')) :
    InodeFresh L ⟨m, .newInode dir path flags, .created r, m'⟩ := by
  have hp := ha.1
  obtain ⟨n, m₁, hcr, -, hcases⟩ := newInode_cases hc hp hv ha h
  obtain ⟨hn, hfree, hmarked, hothers⟩ := hcr.fresh hc hp
  refine ⟨n, fun i hi => ?_, hn, hfree, ?_⟩
  · rcases hcases with ⟨-, -, ⟨-, hno⟩ | hno⟩ | ⟨-, -, b, -, hno, -⟩
    · exact Option.some.inj (hi.symm.trans hno)
    · exact absurd (hi.symm.trans hno) (by simp)
    · exact Option.some.inj (hi.symm.trans hno)
  · rcases hcases with ⟨-, rfl, -⟩ | ⟨h2, -, b, -, -, hat, -⟩
    · exact ⟨hmarked, hothers⟩
    · -- the block of a directory changes neither inode bits nor other records
      have hc₁ := hcr.consistent hc hp
      have hsame : ∀ n', L.IsInode n' → L.inodeMarked m' n' = L.inodeMarked m₁ n' := by
        intro n' hn'
        have hiff := hat.live_iff hc₁ hp h2 n'
        simp only [Layout.Live, hn', true_and] at hiff
        exact Bool.eq_iff_iff.mpr hiff
      refine ⟨(hsame n hn).trans hmarked, fun n' hn' hne => ?_⟩
      have hrec := hat.keeps hc₁ hp h2 (z := .record n') hn' (by simp [hne])
      exact ⟨(hsame n' hn').trans (hothers n' hn' hne).1, hrec.trans (hothers n' hn' hne).2⟩

/-- Inodes stay in use, and a number given out was not in use before. -/
theorem step_live {c : Call} {o : Answer} (hv : c.Proper L m) (ha : c.Allowed L m)
    (h : step L.sb m c = .ok (o, m')) :
    (∀ n, L.Live m n → L.Live m' n) ∧
      ∀ i, o.inodeNo = some i → ∃ n : Nat, i = (n : Int) ∧ ¬L.Live m n ∧ L.Live m' n := by
  rcases step_cases h with ⟨no, f, data, r, rfl, rfl, hw⟩ | ⟨dir, path, flags, r, rfl, rfl, hw⟩
  · refine ⟨fun n hn => ?_, fun i hi => by cases hi⟩
    rcases ext2Write_cases hc ha.1 hv ha.2 hw with ⟨-, rfl, -⟩ | ⟨h2, -, b, -, hat⟩
    · exact hn
    · exact (hat.live_iff hc ha.1 h2 n).mpr hn
  · obtain ⟨n, hno, hn, hfree, hmarked, hothers⟩ := newInode_fresh hc hv ha hw
    refine ⟨fun n' hn' => ?_, fun i hi => ⟨n, hno i hi, fun hl => ?_, hn, hmarked⟩⟩
    · by_cases he : n' = n
      · exact he ▸ ⟨hn, hmarked⟩
      · exact ⟨hn'.1, (hothers n' hn'.1 he).1.trans hn'.2⟩
    · exact absurd (hl.2.symm.trans hfree) (by decide)

end Step

section Run
variable {L : Geometry} {m : Mem} {calls : List Call} {tr : List (Transition Mem Call Answer)}

/-- The numbers given out in a run are different and were not in use before it. -/
theorem given_out_once (hc : Consistent L m) (hr : run (step L.sb) m calls = some tr)
    (hv : ∀ x ∈ tr, x.input.Proper L x.pre) (ha : ∀ x ∈ tr, x.input.Allowed L x.pre) :
    (tr.filterMap (·.output.inodeNo)).Nodup ∧
      ∀ i ∈ tr.filterMap (·.output.inodeNo), ∃ n : Nat, i = (n : Int) ∧ ¬L.Live m n := by
  induction calls generalizing m tr with
  | nil => simp [run_nil hr]
  | cons c calls ih =>
    obtain ⟨o, m', rest, hs, hrest, rfl⟩ := run_cons hr
    have hv0 := hv _ (.head _)
    have ha0 := ha _ (.head _)
    have hc' := (step_isolated hc hv0 ha0 hs).consistent
    obtain ⟨hmono, hgiven⟩ := step_live hc hv0 ha0 hs
    obtain ⟨hnodup, hdead⟩ := ih hc' hrest (fun x hx => hv x (by simp [hx]))
      (fun x hx => ha x (by simp [hx]))
    have hdead' : ∀ i ∈ rest.filterMap (·.output.inodeNo), ∃ n : Nat, i = (n : Int) ∧ ¬L.Live m n := by
      intro i hi
      obtain ⟨n, rfl, hn⟩ := hdead i hi
      exact ⟨n, rfl, fun hl => hn (hmono n hl)⟩
    cases ho : o.inodeNo with
    | none =>
      have hfilter : (⟨m, c, o, m'⟩ :: rest).filterMap (·.output.inodeNo) =
          rest.filterMap (·.output.inodeNo) := by simp [ho]
      rw [hfilter]
      exact ⟨hnodup, hdead'⟩
    | some i =>
      obtain ⟨n, rfl, hn, hn'⟩ := hgiven i ho
      have hfilter : (⟨m, c, o, m'⟩ :: rest).filterMap (·.output.inodeNo) =
          (n : Int) :: rest.filterMap (·.output.inodeNo) := by simp [ho]
      rw [hfilter]
      refine ⟨List.nodup_cons.mpr ⟨fun hmem => ?_, hnodup⟩, ?_⟩
      · obtain ⟨k, hk, hdk⟩ := hdead _ hmem
        obtain rfl : n = k := Int.ofNat.inj hk
        exact hdk hn'
      · intro j hj
        rcases List.mem_cons.mp hj with rfl | hj
        · exact ⟨n, rfl, hn⟩
        · exact hdead' j hj

/-- In every run of proper calls that meet the condition, ext2_new_inode takes a free inode,
marks it and changes no other, and no number is given out twice. -/
theorem inodes_fresh (hc : Consistent L.toLayout m) (hr : run (step L.sb) m calls = some tr)
    (hv : ∀ x ∈ tr, x.input.Proper L.toLayout x.pre)
    (ha : ∀ x ∈ tr, x.input.Allowed L.toLayout x.pre) :
    (∀ x ∈ tr, ∀ dir path flags, x.input = .newInode dir path flags → InodeFresh L.toLayout x) ∧
      (tr.filterMap (·.output.inodeNo)).Nodup := by
  have hinv := run_consistent hc hr hv ha
  refine ⟨fun x hx dir path flags hin => ?_, (given_out_once hc hr hv ha).1⟩
  have hs := run_step hr x hx
  have hvx := hv x hx
  have hax := ha x hx
  obtain ⟨pre, input, output, post⟩ := x
  simp only at hin hs hvx hax
  subst hin
  rcases step_cases hs with ⟨no, f, data, r, hin, -⟩ | ⟨dir', path', flags', r, hin, rfl, hw⟩
  · cases hin
  · cases hin
    exact newInode_fresh (hinv _ hx) hvx hax hw

end Run

theorem inodes_fresh_newDirectory : ∃ tr, run (step 0xC0200400) freshSeed.image [makeX] = some tr ∧
    tr.map (·.output.inodeNo) = [some 3] ∧ (∀ x ∈ tr, InodeFresh smallLayout x) := by
  obtain ⟨m', hs⟩ := freshSeed_step
  have h := inodes_fresh (L := smallGeometry) (freshSeed.image_consistent (by decide))
    (run_single hs) (List.forall_mem_singleton.mpr freshSeed_proper)
    (List.forall_mem_singleton.mpr freshSeed_allowed)
  refine ⟨_, run_single hs, rfl, fun x hx => h.1 x hx 2#32 [0x78#8] 0x4000#32 ?_⟩
  rw [List.mem_singleton.mp hx]
  rfl

/-- The first 34 inodes are in use. -/
def usedInodes : Seed := ⟨0x1FF#32, 0#32, 0xFFFFFFFF#32, 3#32, 55#32, 30#32⟩

/-- Creating a file in that image gives out inode 3, which is in use: the index within the
second bitmap word is taken as the inode number. -/
theorem used_inode_given_out : Consistent smallLayout usedInodes.image ∧
    (Call.newInode 2#32 [0x78#8] 0x8000#32).Proper smallLayout usedInodes.image ∧
    ∃ x, run (step 0xC0200400) usedInodes.image [.newInode 2#32 [0x78#8] 0x8000#32] = some [x] ∧
      x.output.inodeNo = some 3 ∧ smallLayout.inodeMarked x.pre 3 ∧
      ¬InodeFresh smallLayout x := by
  have hm : smallLayout.inodeMarked usedInodes.image 3 := by decide
  refine ⟨usedInodes.image_consistent (by decide), ⟨⟨⟨by decide, by decide⟩, by decide⟩,
    by decide⟩, ?_⟩
  obtain ⟨r, hs, ho⟩ : ∃ r, step 0xC0200400 usedInodes.image (.newInode 2#32 [0x78#8] 0x8000#32) =
      .ok r ∧ r.1.inodeNo = some 3 := exists_ok (by decide +kernel)
  refine ⟨_, run_single hs, ho, hm, fun hfresh => ?_⟩
  obtain ⟨n, hn, -, hfree, -⟩ := hfresh
  have h3 := hn 3 ho
  obtain rfl : 3 = n := by omega
  exact absurd (hm.symm.trans hfree) (by decide)

end TapiOS.Fs.Ext2
