import TapiOS.Task.ElfPages

/-!
# Which executables are loaded as their headers say

The loader counts the pages of a segment from its size alone, so a segment that starts inside
a page can miss its last one, and it adds up the ends of all segments to find the break. The
condition below says what the pages asked for have to be; it is about the headers and about
what is mapped before.
-/
namespace TapiOS.Task.Elf

open Lib Util Mem.Vmm
open Mem.Pmm (isFreePage kallocPageFrame)
open Task.Sbrk (Process)
open BitVec (ofNat toNat_add toNat_ofNat)

/-- The physical address behind a virtual one, as frame and offset. -/
def physical (m : Machine) (a : Word) : Option (Nat × Nat) :=
  (m.translate a).map fun f => (f, a.toNat % 0x1000)

/-- An ELF file at `elf`: its header, and the program headers in frames of data. -/
structure ElfAt (m : Machine) (elf entry : Word) (es : List ProgramEntry) : Prop where
  header : ∃ table n, readHeader m elf = .ok ⟨elfMagic, entry, table, n⟩ ∧
    n.toNat = es.length ∧ Programs m (elf + table) 0 es
  aligned : elf.toNat % 0x1000 = 0
  bytes : ∀ e ∈ es, InData m (elf + e.offset) e.filesz.toNat

/-- The segments are below the window on the tables, and begin in their pages where they
begin in the pages of the file. -/
structure Segmented (es : List ProgramEntry) : Prop where
  below : ∀ e ∈ es, e.vaddr.toNat + e.memsz.toNat ≤ 0xFFC00000
  sizes : ∀ e ∈ es, e.filesz.toNat ≤ e.memsz.toNat
  congruent : ∀ e ∈ es, e.vaddr.toNat % 0x1000 = e.offset.toNat % 0x1000

/-- An address space in which the loader can allocate: no page that it asks for is in the
window on the tables, and there are frames for all of them. -/
structure Loadable (elf : Word) (p : Process) (es : List ProgramEntry) : Prop where
  space : Space p.machine
  separate : Separate p.machine
  requestable : Requestable p.machine (requests elf es)
  window : ∀ b ∈ breakBehind (bssEnd es) :: bssRequests p.brk (bssStart es) (bssEnd es), pdi b ≠ 1023
  frames : Supplies p.machine.pmm ((requests elf es).length +
    2 * (bssRequests p.brk (bssStart es) (bssEnd es)).length)

/-- Every byte of a segment is the byte of the file, every address of it is mapped, and the
break is a mapped page at or above all segments. -/
structure Loaded (m : Machine) (elf : Word) (es : List ProgramEntry) (p : Process) : Prop where
  file : ∀ e ∈ es, ∀ k < e.filesz.toNat, physical p.machine (e.vaddr + ofNat 32 k) =
    physical m (elf + e.offset + ofNat 32 k)
  memory : ∀ e ∈ es, ∀ k < e.memsz.toNat,
    (p.machine.translate (e.vaddr + ofNat 32 k)).isSome
  brkAligned : p.brk.toNat % 0x1000 = 0
  brkMapped : (p.machine.translate p.brk).isSome
  brkAbove : ∀ e ∈ es, e.vaddr.toNat + e.memsz.toNat ≤ p.brk.toNat

/-- The page is mapped before, or asked for. -/
def Backed (p : Process) (elf : Word) (es : List ProgramEntry) (a : Word) : Prop :=
  (firstFrame p.machine (requests elf es) a).isSome ∨
    a.toNat / 0x1000 ≠ 0 ∧ ∃ b ∈ bssRequests p.brk (bssStart es) (bssEnd es), SamePage b a

/-- The pages that the loader asks for are those of the segments. -/
structure AsksRight (p : Process) (elf : Word) (es : List ProgramEntry) : Prop where
  sources : ∀ r ∈ requests elf es, (p.machine.translate r.source).isSome
  file : ∀ e ∈ es, ∀ k < e.filesz.toNat,
    firstFrame p.machine (requests elf es) (e.vaddr + ofNat 32 k) =
      p.machine.translate (elf + e.offset + ofNat 32 k)
  memory : ∀ e ∈ es, ∀ k < e.memsz.toNat, Backed p elf es (e.vaddr + ofNat 32 k)
  brkMapped : Backed p elf es (breakBehind (bssEnd es))
  brkAbove : ∀ e ∈ es, e.vaddr.toNat + e.memsz.toNat ≤ (breakBehind (bssEnd es)).toNat

section Loading
variable {elf entry : Word} {p : Process} {es : List ProgramEntry}

/-- The whole run of the loader: it comes to the end if all pages of the file are mapped. -/
theorem Loadable.run (h : Loadable elf p es) (he : ElfAt p.machine elf entry es) (program : Word) :
    (∃ m₁ m₂, initElfGetEntryPoint elf p program =
        .ok (entry, ⟨m₂, breakBehind (bssEnd es)⟩, elf) ∧
      Mapped p.machine (requests elf es) m₁ ∧
      Filled m₁ (bssRequests p.brk (bssStart es) (bssEnd es)) m₂ ∧
      ∀ r ∈ requests elf es, Lendable p.machine r) ∨
    (∃ x, initElfGetEntryPoint elf p program = .error x) ∧
      ∃ r ∈ requests elf es, ¬ Lendable p.machine r := by
  obtain ⟨table, n, hread, hn, hprogs⟩ := he.header
  have hstart : Mapped p.machine [] p.machine :=
    ⟨.refl h.space, h.separate, fun _ _ => firstFrame_nil.symm, fun _ _ _ hv => hv, 0,
      Nat.le_refl _, rfl⟩
  have hinit : initElfGetEntryPoint elf p program = do
      let s ← (List.range' 0 es.length).foldlM (loadSegment elf (elf + table)) ⟨p.machine, 0, 0⟩
      let p ← loadBss s.bssStart s.bssEnd ⟨s.machine, p.brk⟩
      return (entry, p, elf) := by
    rw [initElfGetEntryPoint, hread, ok_bind, if_neg (not_not.mpr rfl), hn, List.range_eq_range']
  rcases hstart.loadSegments 0 0 h.space
    (fun _ hr => absurd hr List.not_mem_nil) h.requestable (h.frames.mono (by
      rw [List.nil_append]
      omega)) hprogs with ⟨m₁, hcall, h₁, hlend⟩ | ⟨⟨x, hx⟩, r, hr, hnot⟩
  · obtain ⟨k, hk, hpmm⟩ := h₁.pmm
    have hsup : Supplies m₁.pmm (2 * (bssRequests p.brk (bssStart es) (bssEnd es)).length) := by
      rw [hpmm]
      exact (h.frames.mono (Nat.add_le_add_right hk _)).rest
    obtain ⟨m₂, hbss, h₂⟩ := Filled.kallocPages _ h₁.grown.space h₁.separate
      (fun b hb => h.window b (.tail _ hb)) hsup
    refine .inl ⟨m₁, m₂, ?_, h₁, h₂, hlend⟩
    rw [hinit, hcall, ok_bind]
    rw [loadBss_eq]
    show (do
      let p' ← (do
        let m ← m₁.kallocPages (bssRequests p.brk (bssStart es) (bssEnd es)) false true
        return (⟨m, breakBehind (bssEnd es)⟩ : Process))
      return (entry, p', elf)) = _
    rw [hbss]
    rfl
  · refine .inr ⟨⟨x, ?_⟩, r, hr, hnot⟩
    rw [hinit, hx]
    rfl

section Mapped
variable {m₁ m₂ : Machine} {a : Word} (h₁ : Mapped p.machine (requests elf es) m₁)
  (h₂ : Filled m₁ (bssRequests p.brk (bssStart es) (bssEnd es)) m₂) (ha : pdi a ≠ 1023)
include h₁ h₂ ha

/-- After the run, an address is mapped if it is backed. -/
theorem Mapped.isSome_iff : (m₂.translate a).isSome ↔ Backed p elf es a := by
  unfold Backed
  rw [← h₁.frames a ha]
  cases ht : m₁.translate a with
  | some f =>
    rw [(h₂.grown.extend h₁.grown.space fun _ _ => id).translate ht]
    exact ⟨fun _ => .inl rfl, fun _ => rfl⟩
  | none =>
    by_cases hin : a.toNat / 0x1000 ≠ 0 ∧
        ∃ b ∈ bssRequests p.brk (bssStart es) (bssEnd es), SamePage b a
    · obtain ⟨q, -, hq⟩ := h₂.filled a ha ht hin.1 hin.2
      rw [hq]
      exact ⟨fun _ => .inr hin, fun _ => rfl⟩
    · have hnone := h₂.other a ha ht fun h0 b hb hs => hin ⟨h0, b, hb, hs⟩
      rw [hnone]
      constructor
      · intro hs
        cases hs
      · intro hs
        rcases hs with hs | hs
        · cases hs
        · exact absurd hs hin

/-- After the run, an address is in the frame of data `g` if it is after the requests. -/
theorem Mapped.eq_some_iff {g : Nat} (hg : DataFrame p.machine g) :
    m₂.translate a = some g ↔ firstFrame p.machine (requests elf es) a = some g := by
  rw [← h₁.frames a ha]
  cases ht : m₁.translate a with
  | some f => rw [(h₂.grown.extend h₁.grown.space fun _ _ => id).translate ht]
  | none =>
    by_cases hin : a.toNat / 0x1000 ≠ 0 ∧
        ∃ b ∈ bssRequests p.brk (bssStart es) (bssEnd es), SamePage b a
    · obtain ⟨q, hfree, hq⟩ := h₂.filled a ha ht hin.1 hin.2
      have hne := (h₁.grown.dataFrame hg id).reserved.ne_fresh hfree
      rw [hq]
      simp [hne]
    · have hnone := h₂.other a ha ht fun h0 b hb hs => hin ⟨h0, b, hb, hs⟩
      rw [hnone]

end Mapped

theorem Segmented.pdi_ne (h : Segmented es) {e : ProgramEntry} (he : e ∈ es) {k : Nat}
    (hk : k < e.memsz.toNat) : pdi (e.vaddr + ofNat 32 k) ≠ 1023 := by
  have hb := h.below e he
  intro hd
  have hv : (e.vaddr + ofNat 32 k).toNat / 0x400000 = 1023 := congrArg Fin.val hd
  rw [toNat_add, toNat_ofNat] at hv
  omega

theorem Segmented.sameOffset (h : Segmented es) (ha : elf.toNat % 0x1000 = 0) {e : ProgramEntry}
    (he : e ∈ es) (k : Nat) : (e.vaddr + ofNat 32 k).toNat % 0x1000 =
      (elf + e.offset + ofNat 32 k).toNat % 0x1000 := by
  have hc := h.congruent e he
  rw [toNat_add, toNat_add, toNat_add, toNat_ofNat]
  omega

theorem physical_eq_iff {m m' : Machine} {a b : Word} {g : Nat} (hb : m.translate b = some g)
    (ho : a.toNat % 0x1000 = b.toNat % 0x1000) :
    physical m' a = physical m b ↔ m'.translate a = some g := by
  unfold physical
  rw [hb, ho]
  cases m'.translate a with
  | none => simp
  | some f => simp

/-- The program is loaded as its headers say just if the loader asks for the right pages. -/
theorem loaded_iff (h : Loadable elf p es) (he : ElfAt p.machine elf entry es)
    (hseg : Segmented es) (program : Word) :
    (∃ p', initElfGetEntryPoint elf p program = .ok (entry, p', elf) ∧
      Loaded p.machine elf es p') ↔ AsksRight p elf es := by
  rcases h.run he program with ⟨m₁, m₂, hrun, h₁, h₂, hlend⟩ | ⟨⟨x, hx⟩, r, hr, hnot⟩
  · have hpage : (breakBehind (bssEnd es)).toNat % 0x1000 = 0 := by
      rw [breakBehind, pageAlign_toNat]
      omega
    have hbrk := h₁.isSome_iff h₂ (h.window _ (.head _))
    have hmem : ∀ e ∈ es, ∀ k < e.memsz.toNat,
        ((m₂.translate (e.vaddr + ofNat 32 k)).isSome ↔
          Backed p elf es (e.vaddr + ofNat 32 k)) :=
      fun e hin k hk => h₁.isSome_iff h₂ (hseg.pdi_ne hin hk)
    have hfile : ∀ e ∈ es, ∀ k < e.filesz.toNat,
        (physical m₂ (e.vaddr + ofNat 32 k) =
            physical p.machine (elf + e.offset + ofNat 32 k) ↔
          firstFrame p.machine (requests elf es) (e.vaddr + ofNat 32 k) =
            p.machine.translate (elf + e.offset + ofNat 32 k)) := by
      intro e hin k hk
      obtain ⟨g, hg, hdata⟩ := he.bytes e hin k hk
      have hsize := hseg.sizes e hin
      rw [physical_eq_iff hg (hseg.sameOffset he.aligned hin k), hg]
      exact h₁.eq_some_iff h₂ (hseg.pdi_ne hin (by omega)) hdata
    constructor
    · intro ⟨p', hp', hl⟩
      rw [hrun] at hp'
      cases hp'
      refine ⟨fun r hr => ?_, fun e hin k hk => (hfile e hin k hk).mp (hl.file e hin k hk),
        fun e hin k hk => (hmem e hin k hk).mp (hl.memory e hin k hk), hbrk.mp hl.brkMapped,
        hl.brkAbove⟩
      obtain ⟨g, hg, -⟩ := hlend r hr
      rw [hg]
      rfl
    · intro hask
      exact ⟨_, hrun, fun e hin k hk => (hfile e hin k hk).mpr (hask.file e hin k hk),
        fun e hin k hk => (hmem e hin k hk).mpr (hask.memory e hin k hk), hpage,
        hbrk.mpr hask.brkMapped, hask.brkAbove⟩
  · constructor
    · intro ⟨p', hp', _⟩
      rw [hx] at hp'
      cases hp'
    · intro hask
      obtain ⟨hun, -⟩ := (h.requestable.sources r hr).resolve_left hnot
      have hsome := hask.sources r hr
      rw [hun] at hsome
      cases hsome

end Loading

/-! ## Two small files -/

/-- A file with one program header, in the frames 4 and 5, which the table in frame 3 maps at
0x400000. The table in frame 2 is for the program, and has no pages yet. -/
def smallElf (e : ProgramEntry) : Process where
  machine :=
    { ram := fun g j =>
        if g = 1 then
          if j = 1023 then 0x1003 else if j = 0 then 0x2007 else if j = 1 then 0x3003 else 0
        else if g = 3 then if j = 0 then 0x4003 else if j = 1 then 0x5003 else 0
        else if g = 4 then
          if j = 0 then elfMagic else if j = 6 then e.vaddr else if j = 7 then 0x34
          else if j = 11 then 1 else if j = 13 then 1 else if j = 14 then e.offset
          else if j = 15 then e.vaddr else if j = 17 then e.filesz
          else if j = 18 then e.memsz else 0
        else 0
      cr3 := 1
      pmm := ⟨fun i => if i = 0 then 0xFC000000 else 0, 0x6000⟩ }
  brk := 0

/-- The whole segment is in the first page of the file. -/
def onePage : ProgramEntry := ⟨0, 0x1000, 0x100, 0x180⟩

/-- The segment begins in the middle of a page, and ends in the next one. -/
def acrossPages : ProgramEntry := ⟨0x800, 0x1800, 0xC00, 0xC00⟩

theorem onePage_directory {i : Index} (h : present ((smallElf onePage).machine.pde i)) :
    i = 0 ∨ i = 1 ∨ i = 1023 :=
  entry_cases (a := 0x1003) (b := 0x2007) (c := 0x3003) h

theorem onePage_data : DataFrame (smallElf onePage).machine 4 := by
  constructor
  · intro q hq
    have hsame : frameOf q = frameOf 0x4000 := hq
    rw [isFreePage_congr hsame]
    decide
  · intro i hi
    rcases onePage_directory hi with rfl | rfl | rfl
    all_goals decide

/-- The loader asks for one page behind the segment, and sets the break there. -/
theorem onePage_bss : breakBehind (bssEnd [onePage]) = 0x2000 ∧
    bssRequests (smallElf onePage).brk (bssStart [onePage]) (bssEnd [onePage]) = [0x2000] :=
  ⟨by decide, by decide⟩

theorem onePage_loadable : Loadable 0x400000 (smallElf onePage) [onePage] := by
  refine ⟨⟨⟨by decide, by decide⟩, ?_⟩, ?_, ⟨by decide, ?_⟩, ?_, ?_⟩
  · intro i hi
    rcases onePage_directory hi with rfl | rfl | rfl
    all_goals decide
  · intro i k hi hk
    rcases onePage_directory hi with rfl | rfl | rfl
    all_goals
      rcases onePage_directory hk with rfl | rfl | rfl
      all_goals decide
  · intro r hr
    rw [List.mem_singleton.mp hr]
    exact .inl ⟨4, by decide, by decide, onePage_data⟩
  · intro b hb
    rw [List.eq_of_mem_replicate (n := 2) hb]
    decide
  · unfold Supplies
    decide +kernel

theorem onePage_elfAt : ElfAt (smallElf onePage).machine 0x400000 0x1000 [onePage] := by
  have hpage : ∀ a : Word, SamePage a 0x400000 →
      (smallElf onePage).machine.translate a = some 4 := by
    intro a ha
    rw [translate_page _ ha]
    decide
  refine ⟨⟨0x34, 1, by decide, rfl, by decide, ?_, trivial⟩, by decide, ?_⟩
  · intro i hi
    refine ⟨4, hpage _ ?_, onePage_data⟩
    show (0x400034 + ofNat 32 i : Word).toNat / 0x1000 = 0x400
    rw [add_ofNat_toNat (show 0x400034 + i < 2 ^ 32 by omega)]
    show (0x400034 + i) / 0x1000 = 0x400
    omega
  · intro e he
    rw [List.mem_singleton.mp he]
    intro i hi
    change i < 0x100 at hi
    refine ⟨4, hpage _ ?_, onePage_data⟩
    show (0x400000 + ofNat 32 i : Word).toNat / 0x1000 = 0x400
    rw [add_ofNat_toNat (show 0x400000 + i < 2 ^ 32 by omega)]
    show (0x400000 + i) / 0x1000 = 0x400
    omega

theorem onePage_asksRight : AsksRight (smallElf onePage) 0x400000 [onePage] := by
  have hpage : ∀ k < 0x1000, SamePage (onePage.vaddr + ofNat 32 k) 0x1000 ∧
      SamePage (0x400000 + onePage.offset + ofNat 32 k) 0x400000 := by
    intro k hk
    unfold SamePage
    rw [add_ofNat_toNat (show onePage.vaddr.toNat + k < 2 ^ 32 by show 0x1000 + k < _; omega),
      add_ofNat_toNat (show (0x400000 + onePage.offset : Word).toNat + k < 2 ^ 32 by
        show 0x400000 + k < _; omega)]
    show (0x1000 + k) / 0x1000 = 1 ∧ (0x400000 + k) / 0x1000 = 0x400
    omega
  have hframe : firstFrame (smallElf onePage).machine (requests 0x400000 [onePage]) 0x1000 =
      some 4 := by
    decide
  refine ⟨by decide, ?_, ?_, .inr ?_, ?_⟩
  · intro e he k hk
    rw [List.mem_singleton.mp he] at hk ⊢
    change k < 0x100 at hk
    obtain ⟨h1, h2⟩ := hpage k (by omega)
    rw [firstFrame_page h1, translate_page _ h2, hframe]
    decide
  · intro e he k hk
    rw [List.mem_singleton.mp he] at hk ⊢
    change k < 0x180 at hk
    obtain ⟨h1, -⟩ := hpage k (by omega)
    refine .inl ?_
    rw [firstFrame_page h1]
    decide
  · exact ⟨by decide, 0x2000, .head _, rfl⟩
  · rw [onePage_bss.1]
    decide

/-- The segment in one page is loaded. -/
theorem loaded_iff_onePage :
    ∃ p', initElfGetEntryPoint 0x400000 (smallElf onePage) 0 = .ok (0x1000, p', 0x400000) ∧
      Loaded (smallElf onePage).machine 0x400000 [onePage] p' :=
  (loaded_iff onePage_loadable onePage_elfAt ⟨by decide, by decide, by decide⟩ 0).mpr
    onePage_asksRight

/-- The second page of the segment across two pages is not mapped. -/
theorem acrossPages_unmapped : 0x800 < acrossPages.filesz.toNat ∧
    ∃ p', initElfGetEntryPoint 0x400000 (smallElf acrossPages) 0 = .ok (0x1800, p', 0x400000) ∧
      p'.machine.translate (acrossPages.vaddr + 0x800) = none := by
  refine ⟨by decide, ?_⟩
  obtain ⟨⟨entry, p', program⟩, hcall, rfl, rfl, hnone⟩ :
      ∃ r, initElfGetEntryPoint 0x400000 (smallElf acrossPages) 0 = .ok r ∧ r.1 = 0x1800 ∧
        r.2.2 = 0x400000 ∧ r.2.1.machine.translate (acrossPages.vaddr + 0x800) = none :=
    exists_ok (by decide +kernel)
  exact ⟨p', hcall, hnone⟩

end TapiOS.Task.Elf
