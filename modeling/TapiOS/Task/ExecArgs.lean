import TapiOS.Task.ExecCopy

/-!
# Copying between two address spaces

While the strings are copied, the heap of the new program grows in frames of its own: a
store there changes nothing in the old address space, no table, and no other page. So what
is read is what the caller passed, and what is written stays.
-/
namespace TapiOS.Task.ExecCopy

open Lib Util Mem.Vmm Task.Sbrk
open BitVec (ofNat toNat_ofNat)

/-! ## Room for the heap -/

variable {m' m : Machine} {a : Word} {f : Nat} {W W' : Word → Prop} {l : List Byte}

/-- The pages `lo + 1` to `lo + n`. -/
def pageList (lo n : Nat) : List Word :=
  (List.range' (lo + 1) n).map fun k => ofNat 32 (k * 0x1000)

section Pages
variable {lo n : Nat}

theorem pageList_add (k : Nat) : pageList lo (n + k) = pageList lo n ++ pageList (lo + n) k := by
  unfold pageList
  rw [← List.map_append, show lo + n + 1 = lo + 1 + n by omega, List.range'_append_1]

theorem mem_pageList (h : lo + n < 0x100000) {page : Word} (hp : page ∈ pageList lo n) :
    lo < page.toNat / 0x1000 ∧ page.toNat / 0x1000 ≤ lo + n ∧ page.toNat % 0x1000 = 0 := by
  obtain ⟨k, hk, rfl⟩ := List.mem_map.mp hp
  rw [List.mem_range'_1] at hk
  rw [toNat_ofNat_of_lt (by omega)]
  omega

theorem exists_pageList (h : lo + n < 0x100000) {k : Nat} (h1 : lo < k) (h2 : k ≤ lo + n) :
    ∃ page ∈ pageList lo n, k = page.toNat / 0x1000 := by
  refine ⟨_, List.mem_map.mpr ⟨k, List.mem_range'_1.mpr (by omega), rfl⟩, ?_⟩
  rw [toNat_ofNat_of_lt (by omega)]
  omega

theorem pairwise_pageList (h : lo + n < 0x100000) :
    (pageList lo n).Pairwise fun a b => a.toNat / 0x1000 ≠ b.toNat / 0x1000 := by
  rw [pageList, List.pairwise_map]
  apply (List.pairwise_lt_range' 1 Nat.one_pos).imp_of_mem
  intro k l hk hl hlt
  rw [List.mem_range'_1] at hk hl
  rw [toNat_ofNat_of_lt (by omega),
    toNat_ofNat_of_lt (by omega)]
  omega

theorem kallocPage_pageAlign (m : Machine) (a : Word) (kernel readwrite : Bool) :
    m.kallocPage (pageAlign a) kernel readwrite = m.kallocPage a kernel readwrite := by
  have h : pageAlign (pageAlign a) = pageAlign a :=
    pageAlign_of_aligned (by rw [pageAlign_toNat]; omega)
  unfold Machine.kallocPage
  rw [h]

/-- The addresses that _sbrk passes to kalloc_page are in these pages. -/
theorem pagesBehind_pageAlign (old : Word) :
    (pagesBehind old n).map pageAlign = pageList (old.toNat / 0x1000) n := by
  unfold pagesBehind pageList
  rw [List.map_map, ← List.map_add_range', List.map_map]
  apply List.map_congr_left
  intro i hi
  apply BitVec.eq_of_toNat_eq
  show (pageAlign (old + ofNat 32 (i * 0x1000))).toNat = _
  rw [pageAlign_toNat, BitVec.toNat_add, toNat_ofNat]
  show _ = (ofNat 32 ((old.toNat / 0x1000 + i) * 0x1000)).toNat
  rw [toNat_ofNat]
  omega

theorem kallocPages_pageAlign (m : Machine) (pages : List Word) (kernel readwrite : Bool) :
    m.kallocPages (pages.map pageAlign) kernel readwrite =
      m.kallocPages pages kernel readwrite := by
  unfold Machine.kallocPages
  rw [List.foldlM_map]
  congr 1
  funext m page
  rw [kallocPage_pageAlign]

end Pages

/-- Up to `top`, which is below the window on the tables, the pages behind the break are free
to allocate. -/
structure Room (p : Process) (top : Nat) : Prop where
  window : top < 0xFFC00000
  unmapped : ∀ a : Word, p.brk.toNat / 0x1000 < a.toNat / 0x1000 →
    a.toNat / 0x1000 ≤ top / 0x1000 → p.machine.translate a = none
  frames : Supplies p.machine.pmm
    ((pageList (p.brk.toNat / 0x1000) (top / 0x1000 - p.brk.toNat / 0x1000)).length +
      (missing p.machine
        (pageList (p.brk.toNat / 0x1000) (top / 0x1000 - p.brk.toNat / 0x1000))).card)

/-- `(brk + size + 7) & ~7`, which does not wrap here. -/
def breakAfter (brk size : Nat) : Nat := (brk + size + 7) / 8 * 8

theorem le_breakAfter (brk size : Nat) : brk + size ≤ breakAfter brk size := by
  unfold breakAfter
  omega

section Growth
variable {p : Process} {top : Nat} {increment : Word}

theorem sbrk_pages (hnn : increment.toNat < 2 ^ 31) (h0 : increment.toNat ≠ 0)
    (hwrap : p.brk.toNat + increment.toNat + 7 < 2 ^ 32)
    (hpages : p.machine.kallocPages (pageList (p.brk.toNat / 0x1000)
      (breakAfter p.brk.toNat increment.toNat / 0x1000 - p.brk.toNat / 0x1000)) false true =
        .ok m') : ∃ p', sbrk p increment = .ok (p.brk, p') ∧ p'.machine = m' ∧
      p'.brk.toNat = breakAfter p.brk.toNat increment.toNat := by
  have hnew : (newBreak p.brk increment).toNat = breakAfter p.brk.toNat increment.toNat :=
    newBreak_toNat hwrap
  have hle : p.brk.toNat ≤ (newBreak p.brk increment).toNat := by
    rw [hnew]
    exact (Nat.le_add_right _ _).trans (le_breakAfter _ _)
  have hint : 0 ≤ increment.toInt := by
    rw [BitVec.toInt_eq_toNat_of_lt (by omega)]
    omega
  have hne : increment ≠ 0 := fun he => h0 (by rw [he]; rfl)
  rw [← hnew] at hpages ⊢
  unfold sbrk
  rw [if_neg (Int.not_lt.mpr hint), if_neg hne]
  dsimp only
  rw [pagediff_eq hle]
  set n := (newBreak p.brk increment).toNat / 0x1000 - p.brk.toNat / 0x1000 with hn
  by_cases hz : n = 0
  · rw [if_pos (by omega)]
    rw [hz] at hpages
    exact ⟨_, rfl, Except.ok.inj hpages, rfl⟩
  · rw [if_neg (by omega), if_pos (by omega), Int.toNat_natCast, ← kallocPages_pageAlign,
      pagesBehind_pageAlign, hpages]
    exact ⟨_, rfl, rfl, rfl⟩

theorem Room.sbrk (h : Room p top) (hsep : Separate p.machine) (hs : Space p.machine)
    (hnn : increment.toNat < 2 ^ 31) (h0 : increment.toNat ≠ 0)
    (hle : breakAfter p.brk.toNat increment.toNat ≤ top) :
    ∃ p', sbrk p increment = .ok (p.brk, p') ∧
      p'.brk.toNat = breakAfter p.brk.toNat increment.toNat ∧
      MapsEach (pageList (p.brk.toNat / 0x1000)
        (breakAfter p.brk.toNat increment.toNat / 0x1000 - p.brk.toNat / 0x1000))
        p.machine p'.machine ∧ Room p' top := by
  have hwin := h.window
  have hbrk := le_breakAfter p.brk.toNat increment.toNat
  set lo := p.brk.toNat / 0x1000 with hlo
  set new := breakAfter p.brk.toNat increment.toNat with hnew
  have hsplit : pageList lo (top / 0x1000 - lo) =
      pageList lo (new / 0x1000 - lo) ++ pageList (new / 0x1000) (top / 0x1000 - new / 0x1000) := by
    rw [show top / 0x1000 - lo = new / 0x1000 - lo + (top / 0x1000 - new / 0x1000) by omega,
      pageList_add, show lo + (new / 0x1000 - lo) = new / 0x1000 by omega]
  have hframes := h.frames
  rw [hsplit] at hframes
  have hpages : ∀ page ∈ pageList lo (new / 0x1000 - lo),
      pageAlign page ≠ 0 ∧ pdi page ≠ 1023 ∧ p.machine.translate page = none := by
    intro page hpage
    obtain ⟨h1, h2, h3⟩ := mem_pageList (by omega) hpage
    refine ⟨?_, ?_, h.unmapped page h1 (by omega)⟩
    · rw [pageAlign_of_aligned h3]
      intro he
      rw [he] at h1
      exact absurd h1 (Nat.not_lt_zero _)
    · intro he
      have hd : page.toNat / 0x400000 = 1023 := congrArg Fin.val he
      omega
  obtain ⟨m', hcall, heach, hrest⟩ := kallocPages_only false true hsep hs hpages
    (pairwise_pageList (by omega)) _ hframes
  obtain ⟨p', hsbrk, rfl, hp'⟩ := sbrk_pages hnn h0 (by unfold breakAfter at hnew; omega) hcall
  refine ⟨p', hsbrk, hp', heach, ⟨hwin, ?_, ?_⟩⟩
  · intro a h1 h2
    rw [heach.other a]
    · exact h.unmapped a (by omega) h2
    · intro he
      have hd : a.toNat / 0x400000 = 1023 := congrArg Fin.val he
      omega
    · intro page hpage
      have hm := mem_pageList (by omega) hpage
      omega
  · rw [hp']
    exact hrest

end Growth

/-! ## Two address spaces -/

/-- The address is in the heap that grows from the page of `first`. -/
def InHeap (first : Word) (p : Process) (a : Word) : Prop :=
  first.toNat / 0x1000 ≤ a.toNat / 0x1000 ∧ a.toNat / 0x1000 ≤ p.brk.toNat / 0x1000

/-- A frame that belongs to the heap alone: it holds no table of either space, and none of
the bytes `A` of the old one. -/
structure HeapFrame (A : Set Word) (old : Nat) (m : Machine) (f : Nat) : Prop where
  data : DataFrame m f
  oldData : DataFrame (m.under old) f
  unread : ∀ x ∈ A, (m.under old).translate x ≠ some f

/-- The new space is in use, and the old one can be read at `A`. The directories are in the
memory of the kernel, which both spaces have. -/
structure Copying (A : Set Word) (old : Nat) (oldPdir pdir first : Word) (p : Process) : Prop where
  space : Space p.machine
  separate : Separate p.machine
  oldSpace : Space (p.machine.under old)
  oldDir : DataFrame p.machine old
  toOld : p.machine.translate oldPdir = some old
  toNew : (p.machine.under old).translate pdir = some p.machine.cr3
  read : ∀ a ∈ A, ∃ g, (p.machine.under old).translate a = some g ∧ DataFrame p.machine g
  heap : ∀ a, InHeap first p a →
    ∃ f, p.machine.translate a = some f ∧ HeapFrame A old p.machine f
  own : ∀ a b, InHeap first p a → InHeap first p b →
    p.machine.translate a = p.machine.translate b → a.toNat / 0x1000 = b.toNat / 0x1000

/-- The bytes read, and those of the heap outside of `W`, stay. -/
structure Kept (A : Set Word) (old : Nat) (first : Word) (W : Word → Prop) (p p' : Process) :
    Prop where
  oldBytes : ∀ a ∈ A, (p'.machine.under old).loadByte a = (p.machine.under old).loadByte a
  bytes : ∀ a, InHeap first p a → ¬ W a → p'.machine.loadByte a = p.machine.loadByte a

section Copying
variable {A : Set Word} {old : Nat} {oldPdir pdir first : Word} {p p' : Process}

theorem loadByte_congr (h : m.translate a = some f) (h' : m'.translate a = some f)
    (hr : m'.ram f = m.ram f) : m'.loadByte a = m.loadByte a := by
  rw [loadByte_eq h, loadByte_eq h', hr]

theorem changePdir_eq (hm : m.SelfMapped) {c : Nat} (h : m.translate a = some c) :
    m.changePdir a = .ok (m.under c) := by
  have hd := translate_of_present (m := m) (a := a) (by rw [h]; rfl)
  rw [Machine.translate, if_pos hd] at h
  have ht : present (m.pte (pdi a) (pti a)) := by
    by_contra ht
    rw [if_neg ht] at h
    cases h
  rw [if_pos ht] at h
  rw [Machine.changePdir, Machine.getPage, hm.getPageTableEntry, if_pos hd, ok_bind,
    Option.some.inj h]
  rfl

section Growth
variable (hg : Allocated m m') (hs : Space (m.under old)) (hc : DataFrame m old)
  (hread : ∀ a ∈ A, ∃ g, (m.under old).translate a = some g ∧ DataFrame m g)
include hg hs hc hread

theorem heapFrame_new (h : NewData m m' f) : HeapFrame A old m' f := by
  obtain ⟨hpde, -, hext⟩ := hg.under hc hs
  obtain ⟨⟨p, hp, rfl⟩, hdata⟩ := h
  refine ⟨hdata, ⟨hdata.reserved, ?_⟩, ?_⟩
  · intro i hi he
    rw [Machine.table, hpde] at he
    rw [hpde] at hi
    exact (hs.reserved_table hi).ne_fresh hp he.symm
  · intro x hx he
    obtain ⟨g, hg', hdg⟩ := hread x hx
    rw [hext.translate hg'] at he
    exact hdg.reserved.ne_fresh hp (Option.some.inj he).symm

theorem HeapFrame.grown (h : HeapFrame A old m f) : HeapFrame A old m' f := by
  obtain ⟨hpde, -, hext⟩ := hg.under hc hs
  refine ⟨hg.dataFrame h.data id, h.oldData.under hg hpde, ?_⟩
  intro x hx he
  obtain ⟨g, hg', -⟩ := hread x hx
  rw [hext.translate hg'] at he
  exact h.unread x hx (hg'.trans he)

end Growth

theorem Copying.grow {pages : List Word} (h : Copying A old oldPdir pdir first p)
    (heach : MapsEach pages p.machine p'.machine)
    (hcover : ∀ a, InHeap first p' a → InHeap first p a ∨
      ∃ page ∈ pages, a.toNat / 0x1000 = page.toNat / 0x1000) :
    Copying A old oldPdir pdir first p' ∧ Kept A old first (fun _ => False) p p' := by
  have hg := heach.grown
  have hext := hg.extend h.space fun _ _ => id
  obtain ⟨-, hspace, hext'⟩ := hg.under h.oldDir h.oldSpace
  -- a page of the heap is an old one, with the frame it had, or a new one with a new frame
  have hframe : ∀ a, InHeap first p' a →
      (InHeap first p a ∧ p'.machine.translate a = p.machine.translate a) ∨
      ∃ page ∈ pages, a.toNat / 0x1000 = page.toNat / 0x1000 ∧
        p'.machine.translate a = p'.machine.translate page := by
    intro a ha
    rcases hcover a ha with hold | ⟨page, hpage, he⟩
    · obtain ⟨f, hf, -⟩ := h.heap a hold
      exact .inl ⟨hold, (hext.translate hf).trans hf.symm⟩
    · exact .inr ⟨page, hpage, he, translate_page _ he⟩
  have hdiff : ∀ a page, InHeap first p a → page ∈ pages →
      p'.machine.translate a ≠ p'.machine.translate page := by
    intro a page ha hpage he
    obtain ⟨f, hf, hheap⟩ := h.heap a ha
    obtain ⟨g, hg', ⟨q, hq, rfl⟩, -⟩ := heach.mapped page hpage
    rw [hext.translate hf, hg'] at he
    exact hheap.data.reserved.ne_fresh hq (Option.some.inj he).symm
  refine ⟨⟨hg.space, heach.separate, hspace, hg.dataFrame h.oldDir id, hext.translate h.toOld, ?_,
    ?_, ?_, ?_⟩, ?_, ?_⟩
  · rw [hg.cr3]
    exact hext'.translate h.toNew
  · intro a ha
    obtain ⟨g, hg', hdata⟩ := h.read a ha
    exact ⟨g, hext'.translate hg', hg.dataFrame hdata id⟩
  · intro a ha
    rcases hframe a ha with ⟨hold, he⟩ | ⟨page, hpage, -, he⟩
    · obtain ⟨f, hf, hheap⟩ := h.heap a hold
      exact ⟨f, he.trans hf, hheap.grown hg h.oldSpace h.oldDir h.read⟩
    · obtain ⟨f, hf, hnew⟩ := heach.mapped page hpage
      exact ⟨f, he.trans hf, heapFrame_new hg h.oldSpace h.oldDir h.read hnew⟩
  · intro a b ha hb he
    rcases hframe a ha with ⟨holda, hea⟩ | ⟨page, hpage, hpa, hea⟩
    · rcases hframe b hb with ⟨holdb, heb⟩ | ⟨page', hpage', -, heb⟩
      · rw [hea, heb] at he
        exact h.own a b holda holdb he
      · exact absurd (he.trans heb) (hdiff a page' holda hpage')
    · rcases hframe b hb with ⟨holdb, heb⟩ | ⟨page', hpage', hpb, heb⟩
      · exact absurd (he.symm.trans hea) (hdiff b page holdb hpage)
      · rw [hea, heb] at he
        rw [hpa, hpb]
        exact heach.distinct page hpage page' hpage' he
  · intro a ha
    obtain ⟨g, hg', hdata⟩ := h.read a ha
    exact loadByte_congr hg' (hext'.translate hg') (hg.ram hdata id)
  · intro a ha _
    obtain ⟨f, hf, hheap⟩ := h.heap a ha
    exact loadByte_congr hf (hext.translate hf) (hg.ram hheap.data id)

theorem Copying.storeByte (h : Copying A old oldPdir pdir first p) (ha : InHeap first p a)
    (b : Byte) :
    ∃ m', p.machine.storeByte a b = .ok m' ∧ Copying A old oldPdir pdir first ⟨m', p.brk⟩ ∧
      Kept A old first (· = a) p ⟨m', p.brk⟩ ∧ m'.loadByte a = .ok b ∧
      m'.pmm = p.machine.pmm ∧ (∀ i, m'.pde i = p.machine.pde i) ∧
      ∀ x, m'.translate x = p.machine.translate x := by
  obtain ⟨f, hf, hheap⟩ := h.heap a ha
  have hself := h.space.toSelfMapped
  have hself' := h.oldSpace.toSelfMapped
  set j := wordOf a
  set w := putByte (p.machine.ram f j) (byteOf a) b with hw
  have ht : ∀ x, (p.machine.setCell f j w).translate x = p.machine.translate x :=
    translate_setCell_data hself hheap.data j w
  have ht' : ∀ x, ((p.machine.setCell f j w).under old).translate x =
      (p.machine.under old).translate x := translate_setCell_data hself' hheap.oldData j w
  have hpde : ∀ i, (p.machine.setCell f j w).pde i = p.machine.pde i :=
    Machine.setCell_pde (hheap.data.ne_cr3 hself)
  have hload := loadByte_storeByte (a := a) hself hheap.data b
  have hframe : ∀ g, HeapFrame A old p.machine g →
      HeapFrame A old (p.machine.setCell f j w) g := by
    intro g hg
    refine ⟨.setCell_data hself hheap.data hg.data,
      DataFrame.setCell_data (m := p.machine.under old) hself' hheap.oldData hg.oldData, ?_⟩
    intro x hx
    rw [ht']
    exact hg.unread x hx
  refine ⟨p.machine.setCell f j w, storeByte_eq hf b, ?_, ⟨?_, ?_⟩, ?_, rfl,
    hpde, ht⟩
  · refine ⟨h.space.setCell_data hheap.data, ?_,
      Space.setCell_data (m := p.machine.under old) h.oldSpace hheap.oldData,
      .setCell_data hself hheap.data h.oldDir, (ht _).trans h.toOld, (ht' _).trans h.toNew, ?_, ?_, ?_⟩
    · intro i k hi hk he
      rw [Machine.table, Machine.table, hpde, hpde] at he
      rw [hpde] at hi hk
      exact h.separate i k hi hk he
    · intro x hx
      obtain ⟨g, hg, hdata⟩ := h.read x hx
      exact ⟨g, (ht' x).trans hg, .setCell_data hself hheap.data hdata⟩
    · intro x hx
      obtain ⟨g, hg, hheap'⟩ := h.heap x hx
      exact ⟨g, (ht x).trans hg, hframe g hheap'⟩
    · intro x y hx hy he
      rw [ht, ht] at he
      exact h.own x y hx hy he
  · intro x hx
    exact loadByte_setCell_other (m := p.machine.under old) hself' hheap.oldData
      (hheap.unread x hx) j w
  · intro x hx hne
    rw [hload, if_neg]
    intro he
    have hpage := h.own x a hx ha (he.1.trans hf.symm)
    exact hne (BitVec.eq_of_toNat_eq (by have := he.2; omega))
  · rw [hload, if_pos ⟨hf, rfl⟩]

variable {top : Nat}

theorem Room.congr (h : Room p top) (hpmm : m'.pmm = p.machine.pmm)
    (hpde : ∀ i, m'.pde i = p.machine.pde i) (ht : ∀ x, m'.translate x = p.machine.translate x) :
    Room ⟨m', p.brk⟩ top := by
  have hmiss : ∀ l, missing m' l = missing p.machine l := by
    intro l
    unfold missing
    simp only [hpde]
  refine ⟨h.window, fun a h1 h2 => (ht a).trans (h.unmapped a h1 h2), ?_⟩
  rw [hpmm, hmiss]
  exact h.frames

theorem Kept.trans {p'' : Process} (h : Kept A old first W p p') (h' : Kept A old first W' p' p'')
    (hle : p.brk.toNat ≤ p'.brk.toNat) : Kept A old first (fun a => W a ∨ W' a) p p'' := by
  constructor
  · intro a ha
    exact (h'.oldBytes a ha).trans (h.oldBytes a ha)
  · intro a ha hn
    have ha' : InHeap first p' a := ⟨ha.1, ha.2.trans (Nat.div_le_div_right hle)⟩
    exact (h'.bytes a ha' fun hw => hn (.inr hw)).trans (h.bytes a ha fun hw => hn (.inl hw))

theorem Kept.mono (h : Kept A old first W p p') (hw : ∀ a, W a → W' a) :
    Kept A old first W' p p' := ⟨h.oldBytes, fun a ha hn => h.bytes a ha fun hW => hn (hw a hW)⟩

/-- The address is one of `n` from `a` on. -/
def Between (a : Word) (n : Nat) (x : Word) : Prop := a.toNat ≤ x.toNat ∧ x.toNat < a.toNat + n

theorem Copying.storeAll (l : List Byte) (h : Copying A old oldPdir pdir first p)
    (hroom : Room p top) (hlo : first.toNat ≤ a.toNat) (hhi : a.toNat + l.length ≤ p.brk.toNat) :
    ∃ m', storeAll p.machine a l = .ok m' ∧ Copying A old oldPdir pdir first ⟨m', p.brk⟩ ∧
      Room ⟨m', p.brk⟩ top ∧ BytesAt m' a l ∧
      Kept A old first (Between a l.length) p ⟨m', p.brk⟩ := by
  induction l generalizing a p with
  | nil => exact ⟨p.machine, rfl, h, hroom, trivial, fun _ _ => rfl, fun _ _ _ => rfl⟩
  | cons b l ih =>
    rw [List.length_cons] at hhi
    have hnext : (a + 1).toNat = a.toNat + 1 := by
      show (a.toNat + 1) % 2 ^ 32 = _
      omega
    have ha : InHeap first p a := ⟨Nat.div_le_div_right hlo, Nat.div_le_div_right (by omega)⟩
    obtain ⟨m₁, hstore, h₁, hkept₁, hb, hpmm, hpde, ht⟩ := h.storeByte ha b
    obtain ⟨m', hrest, h', hroom', hbytes, hkept⟩ := ih (a := a + 1) h₁ (hroom.congr hpmm hpde ht)
      (by omega) (by dsimp only; omega)
    refine ⟨m', ?_, h', hroom', ⟨?_, hbytes⟩, ?_⟩
    · rw [ExecCopy.storeAll, hstore]
      exact hrest
    · rw [← hb]
      exact hkept.bytes a ha fun hw => by have := hw.1; omega
    · apply (hkept₁.trans hkept le_rfl).mono
      intro x hx
      rcases hx with rfl | hx
      · exact ⟨Nat.le_refl _, by rw [List.length_cons]; omega⟩
      · obtain ⟨h1, h2⟩ := hx
        exact ⟨by omega, by rw [List.length_cons]; omega⟩

theorem Copying.sbrk (increment : Word) (h : Copying A old oldPdir pdir first p)
    (hroom : Room p top) (hnn : increment.toNat < 2 ^ 31) (h0 : increment.toNat ≠ 0)
    (hle : breakAfter p.brk.toNat increment.toNat ≤ top) :
    ∃ p', sbrk p increment = .ok (p.brk, p') ∧
      p'.brk.toNat = breakAfter p.brk.toNat increment.toNat ∧
      Copying A old oldPdir pdir first p' ∧ Room p' top ∧
      Kept A old first (fun _ => False) p p' := by
  obtain ⟨p', hcall, hbrk, heach, hroom'⟩ := hroom.sbrk h.separate h.space hnn h0 hle
  obtain ⟨hcopy, hkept⟩ := h.grow heach (by
    intro a ha
    obtain ⟨h1, h2⟩ := ha
    by_cases hold : a.toNat / 0x1000 ≤ p.brk.toNat / 0x1000
    · exact .inl ⟨h1, hold⟩
    · exact .inr (exists_pageList (by omega) (by omega) (by omega)))
  exact ⟨p', hcall, hbrk, hcopy, hroom', hkept⟩

/-! ## One string -/

/-- Bytes that can be read in the old space. -/
structure Source (A : Set Word) (m : Machine) (a : Word) (l : List Byte) : Prop where
  bytes : BytesAt m a l
  within : ∀ i < l.length, a + ofNat 32 i ∈ A

theorem Source.kept (h : Source A (p.machine.under old) a l) (hk : Kept A old first W p p') :
    Source A (p'.machine.under old) a l :=
  ⟨h.bytes.congr fun i hi => hk.oldBytes _ (h.within i hi), h.within⟩

theorem Source.append {l' : List Byte} (h : Source A m a (l ++ l')) :
    Source A m a l ∧ Source A m (a + ofNat 32 l.length) l' := by
  obtain ⟨h1, h2⟩ := bytesAt_append.mp h.bytes
  refine ⟨⟨h1, fun i hi => h.within i ?_⟩, ⟨h2, fun i hi => ?_⟩⟩
  · rw [List.length_append]
    omega
  · rw [BitVec.add_assoc, ← BitVec.ofNat_add]
    apply h.within
    rw [List.length_append]
    omega

theorem BytesAt.kept (h : BytesAt p.machine a l) (hk : Kept A old first W p p')
    (hlo : first.toNat ≤ a.toNat) (hhi : a.toNat + l.length ≤ p.brk.toNat)
    (hW : ∀ x, Between a l.length x → ¬ W x) : BytesAt p'.machine a l := by
  apply h.congr
  intro i hi
  have hx : (a + ofNat 32 i).toNat = a.toNat + i := add_ofNat_toNat (by omega)
  apply hk.bytes
  · exact ⟨Nat.div_le_div_right (by omega), Nat.div_le_div_right (by omega)⟩
  · exact hW _ ⟨by omega, by omega⟩

/-- One string: it is copied to the break, and its address to the array. -/
theorem Copying.copyString {left top i : Nat} {array copy ptr : Word} {s : List Byte}
    (h : Copying A old oldPdir pdir first p) (hroom : Room p top)
    (hptr : (p.machine.under old).loadWord (slot array i) = .ok ptr)
    (hs : 0 ∉ s) (hsource : Source A (p.machine.under old) ptr (s ++ [0]))
    (hleft : left < KERNEL_STACK_SIZE) (hsize : s.length + 1 ≤ left)
    (hle : breakAfter p.brk.toNat (s.length + 1) ≤ top)
    (hlo : first.toNat ≤ (slot copy i).toNat) (hhi : (slot copy i).toNat + 4 ≤ p.brk.toNat) :
    ∃ p', copyString left oldPdir pdir array copy p i = .ok p' ∧
      p'.brk.toNat = breakAfter p.brk.toNat (s.length + 1) ∧
      Copying A old oldPdir pdir first p' ∧ Room p' top ∧
      BytesAt p'.machine (slot copy i) (wordBytes p.brk) ∧ Spells p'.machine p.brk s ∧
      Kept A old first (fun x => Between (slot copy i) 4 x ∨ p.brk.toNat ≤ x.toNat) p p' := by
  have hspells : Spells (p.machine.under old) ptr s := ⟨hs, hsource.bytes⟩
  unfold KERNEL_STACK_SIZE at hleft
  have hlen : (ofNat 32 (s.length + 1)).toNat = s.length + 1 := by
    rw [toNat_ofNat_of_lt (by omega)]
  have hlen' : (s ++ [0]).length = s.length + 1 := List.length_append
  obtain ⟨p₁, hsbrk, hbrk₁, h₁, hroom₁, hkept₁⟩ := h.sbrk (ofNat 32 (s.length + 1)) hroom
    (by omega) (by omega) (by rw [hlen]; exact hle)
  rw [hlen] at hbrk₁
  have hmono : p.brk.toNat + (s.length + 1) ≤ p₁.brk.toNat := hbrk₁ ▸ le_breakAfter _ _
  obtain ⟨m₂, hword, h₂, hroom₂, hbytes₂, hkept₂⟩ :=
    h₁.storeAll (wordBytes p.brk) hroom₁ hlo (by show _ + 4 ≤ _; omega)
  obtain ⟨m₃, htext, h₃, hroom₃, hbytes₃, hkept₃⟩ :=
    h₂.storeAll (a := p.brk) (s ++ [0]) hroom₂ (by omega) (by rw [hlen']; exact hmono)
  have hslot : BytesAt m₃ (slot copy i) (wordBytes p.brk) := by
    apply hbytes₂.kept hkept₃ hlo
    · show _ + 4 ≤ p₁.brk.toNat
      omega
    · intro x hx hb
      have h1 : x.toNat < (slot copy i).toNat + 4 := hx.2
      have h2 := hb.1
      omega
  refine ⟨⟨m₃, p₁.brk⟩, ?_, hbrk₁, h₃, hroom₃, hslot, ⟨hs, hbytes₃⟩, ?_⟩
  · have hback : (p.machine.under old).changePdir pdir = .ok p.machine :=
      changePdir_eq h.oldSpace.toSelfMapped h.toNew
    rw [ExecCopy.copyString, changePdir_eq h.space.toSelfMapped h.toOld, ok_bind, hptr, ok_bind,
      strlen, strlenFrom_spells hspells (by omega), ok_bind]
    dsimp only
    rw [ok_bind, stackCopy, if_neg (by omega), strncpyFrom_spells hspells, ok_bind, hback, ok_bind,
      hsbrk, ok_bind]
    rw [storeWord_eq, hword, ok_bind, loadWord_of_bytes hbytes₂, ok_bind, strncpyTo_eq hs, htext]
    rfl
  · apply ((hkept₁.trans hkept₂ (by omega)).trans hkept₃ (by dsimp only; omega)).mono
    intro x hx
    rcases hx with (hf | hx) | hx
    · exact hf.elim
    · exact .inl hx
    · exact .inr hx.1

end Copying

end TapiOS.Task.ExecCopy
