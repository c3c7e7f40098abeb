import TapiOS.Task.Elf

/-!
# What the loader maps

The first request for a page decides: its frame is the one of the file's page, and a later
request is turned down as a double allocation. The pages for bss get frames of their own, if
they are not mapped by then.
-/
namespace TapiOS.Task.Elf

open Lib Util Mem.Vmm
open Mem.Pmm (isFreePage kallocPageFrame)
open Task.Sbrk (Process)
open BitVec (ofNat)

def SamePage (a b : Word) : Prop := a.toNat / 0x1000 = b.toNat / 0x1000

instance (a b : Word) : Decidable (SamePage a b) := inferInstanceAs (Decidable (_ = _))

/-- The frame behind an address after the requests: page 0 is never mapped, and a page that
was mapped before keeps its frame. -/
def firstFrame (m : Machine) (rs : List Request) (a : Word) : Option Nat :=
  if a.toNat / 0x1000 = 0 then m.translate a
  else (m.translate a).or
    ((rs.find? fun r => SamePage r.page a).bind fun r => m.translate r.source)

/-- The frame of the file's page can be lent to the program. -/
def Lendable (m : Machine) (r : Request) : Prop :=
  ∃ g, m.translate r.source = some g ∧ g ≠ 0 ∧ DataFrame m g

/-- The state of the machine after some requests. -/
structure Mapped (m : Machine) (rs : List Request) (m' : Machine) : Prop where
  grown : Allocated m m'
  separate : Separate m'
  frames : ∀ a, pdi a ≠ 1023 → m'.translate a = firstFrame m rs a
  vacant : ∀ a, pdi a ≠ 1023 → (∀ r ∈ rs, ¬ SamePage r.page a) → Vacant m a → Vacant m' a
  pmm : ∃ k ≤ rs.length, m'.pmm = taken k m.pmm

section Requests
variable {m m' : Machine} {rs : List Request} {r : Request} {a : Word}

theorem firstFrame_nil : firstFrame m [] a = m.translate a := by
  unfold firstFrame
  rw [List.find?_nil, Option.bind_none, Option.or_none, ite_self]

theorem firstFrame_page {b : Word} (h : SamePage a b) : firstFrame m rs a = firstFrame m rs b := by
  have hpage : a.toNat / 0x1000 = b.toNat / 0x1000 := h
  have hfind : (fun r : Request => decide (SamePage r.page a)) =
      fun r => decide (SamePage r.page b) := by
    funext r
    exact decide_eq_decide.mpr ⟨fun hr => hr.trans h, fun hr => hr.trans h.symm⟩
  unfold firstFrame
  rw [translate_page m h, hpage, hfind]

/-- A request for another page, or for one that has a frame. -/
theorem firstFrame_append (h : SamePage r.page a → a.toNat / 0x1000 = 0 ∨
    (firstFrame m rs a).isSome) : firstFrame m (rs ++ [r]) a = firstFrame m rs a := by
  unfold firstFrame at h ⊢
  by_cases h0 : a.toNat / 0x1000 = 0
  · rw [if_pos h0, if_pos h0]
  · rw [if_neg h0] at h ⊢
    rw [if_neg h0, List.find?_append]
    cases hfind : rs.find? fun r => SamePage r.page a with
    | some r' => rfl
    | none =>
      rw [hfind, Option.bind_none, Option.or_none] at h
      rw [Option.none_or, Option.bind_none, Option.or_none]
      by_cases hsame : SamePage r.page a
      · obtain ⟨f, hf⟩ := Option.isSome_iff_exists.mp ((h hsame).resolve_left h0)
        rw [hf, Option.some_or]
      · rw [List.find?_singleton, decide_eq_false hsame, if_neg Bool.false_ne_true,
          Option.bind_none, Option.or_none]

theorem firstFrame_new (hrs : ∀ r ∈ rs, Lendable m r) (hsame : SamePage r.page a)
    (h0 : a.toNat / 0x1000 ≠ 0) (h : firstFrame m rs a = none) :
    firstFrame m (rs ++ [r]) a = m.translate r.source := by
  unfold firstFrame at h ⊢
  rw [if_neg h0] at h ⊢
  obtain ⟨hnone, hbind⟩ := Option.or_eq_none_iff.mp h
  cases hfind : rs.find? fun r => SamePage r.page a with
  | some r' =>
    obtain ⟨g, hg, -⟩ := hrs r' (List.mem_of_find?_eq_some hfind)
    rw [hfind, Option.bind_some, hg] at hbind
    cases hbind
  | none =>
    rw [List.find?_append, hfind, Option.none_or, List.find?_singleton, decide_eq_true hsame,
      if_pos rfl, Option.bind_some, hnone, Option.none_or]

theorem Lendable.grown (h : Lendable m r) (hs : Space m) (hg : Allocated m m') :
    Lendable m' r := by
  obtain ⟨g, hg', h0, hdata⟩ := h
  exact ⟨g, (hg.extend hs fun _ _ => id).translate hg', h0, hg.dataFrame hdata id⟩

theorem Lendable.vaddrToPhysaddr (h : Lendable m r) (hm : m.SelfMapped) :
    ∃ source, m.vaddrToPhysaddr r.source = .ok source ∧ source ≠ 0 ∧
      m.translate r.source = some (frameOf source) ∧ DataFrame m (frameOf source) := by
  obtain ⟨g, hg, h0, hdata⟩ := h
  have hd := translate_of_present (m := m) (a := r.source) (by rw [hg]; rfl)
  have hframe : frameOf (pageAlign (m.pte (pdi r.source) (pti r.source))) = g := by
    rw [Machine.translate, if_pos hd] at hg
    by_cases ht : present (m.pte (pdi r.source) (pti r.source))
    · rw [if_pos ht] at hg
      rw [← Option.some.inj hg]
      unfold frameOf
      rw [pageAlign_toNat]
      omega
    · rw [if_neg ht] at hg
      cases hg
  refine ⟨pageAlign (m.pte (pdi r.source) (pti r.source)), ?_, ?_, ?_, ?_⟩
  · rw [Machine.vaddrToPhysaddr, Machine.getPage, hm.getPageTableEntry, if_pos hd]
    rfl
  · intro he
    rw [he] at hframe
    exact h0 hframe.symm
  · rw [hframe]
    exact hg
  · rw [hframe]
    exact hdata

theorem pageAlign_eq_zero_iff : pageAlign a = 0 ↔ a.toNat / 0x1000 = 0 := by
  have h := pageAlign_toNat a
  constructor
  · intro he
    rw [he] at h
    change 0 = _ at h
    omega
  · intro he
    apply BitVec.eq_of_toNat_eq
    show _ = 0
    omega

theorem mapFrom_eq {source : Word} (h : m.vaddrToPhysaddr r.source = .ok source) {w : Word}
    (hcall : m.kallocPageFrom source r.page false true = .ok (w, m')) : mapFrom m r = .ok m' := by
  rw [Elf.mapFrom, h, ok_bind, hcall]
  rfl

theorem Mapped.skip (h : Mapped m rs m') (hr : ∀ a, pdi a ≠ 1023 → SamePage r.page a →
    a.toNat / 0x1000 = 0 ∨ (firstFrame m rs a).isSome) : Mapped m (rs ++ [r]) m' := by
  obtain ⟨k, hk, hpmm⟩ := h.pmm
  refine ⟨h.grown, h.separate, ?_, ?_, ⟨k, ?_, hpmm⟩⟩
  · intro a ha
    rw [firstFrame_append (hr a ha)]
    exact h.frames a ha
  · intro a ha hnot
    exact h.vacant a ha fun r hr => hnot r (List.mem_append_left _ hr)
  · rw [List.length_append]
    omega

theorem Mapped.mapFrom (h : Mapped m rs m') (hs : Space m) (hrs : ∀ r ∈ rs, Lendable m r)
    (hr : Lendable m r) (hwin : pdi r.page ≠ 1023) (hsup : Supplies m'.pmm 1) :
    ∃ m'', mapFrom m' r = .ok m'' ∧ Mapped m (rs ++ [r]) m'' := by
  have hs' := h.grown.space
  obtain ⟨source, hphys, hne, hsource, hdata⟩ :=
    (hr.grown hs h.grown).vaddrToPhysaddr hs'.toSelfMapped
  by_cases h0 : r.page.toNat / 0x1000 = 0
  · refine ⟨m', mapFrom_eq hphys (w := 0) ?_, h.skip fun a _ hsame => .inl (hsame ▸ h0)⟩
    unfold Machine.kallocPageFrom
    rw [if_neg hne]
    exact if_pos (pageAlign_eq_zero_iff.mpr h0)
  · have hpage : pageAlign r.page ≠ 0 := fun he => h0 (pageAlign_eq_zero_iff.mp he)
    cases ht : m'.translate r.page with
    | some f =>
      refine ⟨m', mapFrom_eq hphys (kallocPageFrom_mapped false true hs'.toSelfMapped hne hpage
        (by rw [ht]; rfl)), h.skip fun a ha hsame => .inr ?_⟩
      rw [← h.frames a ha, ← translate_page m' hsame, ht]
      rfl
    | none =>
      have hnew : newTables m' r.page ≤ 1 := by
        unfold newTables
        split
        · exact Nat.zero_le _
        · exact Nat.le_refl _
      obtain ⟨m'', hcall, hgrown, hnow, honly, hpmm⟩ := kallocPageFrom_data false true h.separate
        hs' hne hpage hwin ht hdata (hsup.mono hnew)
      obtain ⟨k, hk, hpmm'⟩ := h.pmm
      refine ⟨m'', mapFrom_eq hphys hcall, h.grown.trans hgrown, honly.separate, ?_, ?_,
        ⟨k + newTables m' r.page, ?_, ?_⟩⟩
      · intro a ha
        by_cases hsame : SamePage r.page a
        · have hfirst : firstFrame m rs a = none := by
            rw [← h.frames a ha, ← translate_page m' hsame, ht]
          rw [firstFrame_new hrs hsame (hsame ▸ h0) hfirst, ← translate_page m'' hsame, hnow]
          obtain ⟨g, hg, -⟩ := hr
          rw [(h.grown.extend hs fun _ _ => id).translate hg] at hsource
          rw [hg, hsource]
        · rw [firstFrame_append fun hs => absurd hs hsame,
            (honly.other a ha fun he => hsame he.symm).1]
          exact h.frames a ha
      · intro a ha hnot hv
        obtain ⟨hnot₁, hnot₂⟩ := List.forall_mem_append.mp hnot
        exact (honly.other a ha fun he => hnot₂ r (.head _) he.symm).2
          (h.vacant a ha hnot₁ hv)
      · rw [List.length_append]
        exact Nat.add_le_add hk hnew
      · rw [hpmm, hpmm', taken_add]

/-- The loader stops at a page of the file that is not mapped. -/
theorem mapFrom_vacant (hm : m.SelfMapped) (hv : Vacant m r.source) : ∃ e, mapFrom m r = .error e := by
  by_cases hd : present (m.pde (pdi r.source))
  · have hphys : m.vaddrToPhysaddr r.source = .ok 0 := by
      rw [Machine.vaddrToPhysaddr, Machine.getPage, hm.getPageTableEntry, if_pos hd, ok_bind, hv hd]
      rfl
    exact ⟨.nullFrame, by rw [Elf.mapFrom, hphys, ok_bind]; rfl⟩
  · exact ⟨.pageFault, by
      rw [Elf.mapFrom, Machine.vaddrToPhysaddr, Machine.getPage, hm.getPageTableEntry, if_neg hd]
      rfl⟩

/-- Requests outside of the window on the tables, for pages of the file that are mapped, or
not mapped and not asked for either. -/
structure Requestable (m : Machine) (rs : List Request) : Prop where
  window : ∀ r ∈ rs, pdi r.page ≠ 1023
  sources : ∀ r ∈ rs, Lendable m r ∨ m.translate r.source = none ∧ Vacant m r.source ∧
    pdi r.source ≠ 1023 ∧ ∀ r' ∈ rs, ¬ SamePage r'.page r.source

variable {rest : List Request}

theorem Requestable.left (h : Requestable m (rs ++ rest)) :
    Requestable m rs := by
  constructor
  · intro r hr
    exact h.window r (List.mem_append_left _ hr)
  · intro r hr
    refine (h.sources r (List.mem_append_left _ hr)).imp_right fun ⟨hun, hv, hwin, hnot⟩ => ?_
    exact ⟨hun, hv, hwin, fun r' hr' => hnot r' (List.mem_append_left _ hr')⟩

/-- All requests are met, or the loader stops at one of them. -/
theorem Mapped.mapAll (h : Mapped m rs m') (hs : Space m)
    (hrs : ∀ r ∈ rs, Lendable m r) (hreq : Requestable m (rs ++ rest))
    (hsup : Supplies m.pmm (rs ++ rest).length) :
    (∃ m'', rest.foldlM Elf.mapFrom m' = .ok m'' ∧ Mapped m (rs ++ rest) m'' ∧
      ∀ r ∈ rs ++ rest, Lendable m r) ∨
    (∃ e, rest.foldlM Elf.mapFrom m' = .error e) ∧ ∃ r ∈ rest, ¬ Lendable m r := by
  induction rest generalizing rs m' with
  | nil =>
    rw [List.append_nil]
    exact .inl ⟨m', rfl, h, hrs⟩
  | cons r rest ih =>
    have hmem : r ∈ rs ++ r :: rest := List.mem_append_right _ (.head _)
    have hsplit : rs ++ r :: rest = rs ++ [r] ++ rest := List.append_cons ..
    by_cases hr : Lendable m r
    · have hone : Supplies m'.pmm 1 := by
        obtain ⟨k, hk, hpmm⟩ := h.pmm
        rw [List.length_append, List.length_cons] at hsup
        rw [hpmm]
        exact (hsup.mono (show k + 1 ≤ _ by omega)).rest
      obtain ⟨m₁, hcall, h₁⟩ := h.mapFrom hs hrs hr (hreq.window r hmem) hone
      rw [List.foldlM_cons, hcall, hsplit]
      rw [hsplit] at hreq hsup
      have hrs₁ : ∀ r' ∈ rs ++ [r], Lendable m r' :=
        List.forall_mem_append.mpr ⟨hrs, by simpa using hr⟩
      rcases ih h₁ hrs₁ hreq hsup with hok | ⟨herr, r', hr', hnot⟩
      · exact .inl hok
      · exact .inr ⟨herr, r', .tail _ hr', hnot⟩
    · obtain ⟨-, hv, hwin, hnot⟩ := (hreq.sources r hmem).resolve_left hr
      have hv' := h.vacant _ hwin (fun r' hr' => hnot r' (List.mem_append_left _ hr')) hv
      obtain ⟨e, he⟩ := mapFrom_vacant h.grown.space.toSelfMapped hv'
      refine .inr ⟨⟨e, ?_⟩, r, .head _, hr⟩
      rw [List.foldlM_cons, he]
      rfl

end Requests

/-! ## The program headers -/

/-- All requests of the program headers. -/
def requests (elf : Word) (segments : List ProgramEntry) : List Request :=
  segments.flatMap (segmentRequests elf)

/-- `bss_start` and `bss_end`: the sums over all program headers. -/
def bssStart (segments : List ProgramEntry) : Word :=
  segments.foldl (fun s e => s + (e.vaddr + e.filesz)) 0

def bssEnd (segments : List ProgramEntry) : Word :=
  segments.foldl (fun s e => s + (e.vaddr + e.memsz)) 0

/-- Bytes in frames of data. -/
def InData (m : Machine) (a : Word) (n : Nat) : Prop :=
  ∀ i < n, ∃ g, m.translate (a + ofNat 32 i) = some g ∧ DataFrame m g

section Headers
variable {m m' : Machine} {elf programs : Word}

theorem loadWord_congr {a : Word} (h : ∀ i < 4, m'.loadByte (a + ofNat 32 i) =
    m.loadByte (a + ofNat 32 i)) : m'.loadWord a = m.loadWord a := by
  have h0 := h 0 (by decide)
  rw [BitVec.add_zero] at h0
  unfold Machine.loadWord
  rw [h0, show a + 1 = a + ofNat 32 1 from rfl, h 1 (by decide),
    show a + 2 = a + ofNat 32 2 from rfl, h 2 (by decide),
    show a + 3 = a + ofNat 32 3 from rfl, h 3 (by decide)]

theorem readProgram_congr {i : Nat} (h : ∀ k < 32,
    m'.loadByte (programs + ofNat 32 (32 * i) + ofNat 32 k) =
      m.loadByte (programs + ofNat 32 (32 * i) + ofNat 32 k)) :
    readProgram m' programs i = readProgram m programs i := by
  have hword : ∀ c, c + 4 ≤ 32 →
      m'.loadWord (programs + ofNat 32 (32 * i) + ofNat 32 c) =
        m.loadWord (programs + ofNat 32 (32 * i) + ofNat 32 c) := by
    intro c hc
    apply loadWord_congr
    intro k hk
    rw [BitVec.add_assoc _ (ofNat 32 c), ← BitVec.ofNat_add]
    exact h (c + k) (by omega)
  unfold readProgram
  dsimp only
  rw [show (4 : Word) = ofNat 32 4 from rfl, show (8 : Word) = ofNat 32 8 from rfl,
    show (16 : Word) = ofNat 32 16 from rfl, show (20 : Word) = ofNat 32 20 from rfl,
    hword 4 (by decide), hword 8 (by decide), hword 16 (by decide), hword 20 (by decide)]

/-- The program headers from the one with index `k` on, in frames of data. -/
def Programs (m : Machine) (programs : Word) : Nat → List ProgramEntry → Prop
  | _, [] => True
  | k, e :: es => readProgram m programs k = .ok e ∧
      InData m (programs + ofNat 32 (32 * k)) 32 ∧ Programs m programs (k + 1) es

theorem Mapped.loadSegments {rs : List Request} {k : Nat} {es : List ProgramEntry}
    (start stop : Word) (h : Mapped m rs m') (hs : Space m) (hrs : ∀ r ∈ rs, Lendable m r)
    (hreq : Requestable m (rs ++ requests elf es))
    (hsup : Supplies m.pmm (rs ++ requests elf es).length) (hes : Programs m programs k es) :
    (∃ m'', (List.range' k es.length).foldlM (loadSegment elf programs) ⟨m', start, stop⟩ =
        .ok ⟨m'', es.foldl (fun s e => s + (e.vaddr + e.filesz)) start,
          es.foldl (fun s e => s + (e.vaddr + e.memsz)) stop⟩ ∧
      Mapped m (rs ++ requests elf es) m'' ∧ ∀ r ∈ rs ++ requests elf es, Lendable m r) ∨
    (∃ x, (List.range' k es.length).foldlM (loadSegment elf programs) ⟨m', start, stop⟩ =
        .error x) ∧ ∃ r ∈ requests elf es, ¬ Lendable m r := by
  induction es generalizing rs m' k start stop with
  | nil =>
    have hnil : rs ++ requests elf [] = rs := List.append_nil rs
    rw [hnil]
    exact .inl ⟨m', rfl, h, hrs⟩
  | cons e es ih =>
    obtain ⟨hread, hdata, hes⟩ := hes
    have hread' : readProgram m' programs k = .ok e := by
      rw [← hread]
      apply readProgram_congr
      intro i hi
      obtain ⟨g, hg, hframe⟩ := hdata i hi
      exact h.grown.loadByte hs hg hframe
    have hsplit : rs ++ requests elf (e :: es) =
        rs ++ segmentRequests elf e ++ requests elf es := by
      rw [requests, List.flatMap_cons, ← List.append_assoc]
      rfl
    rw [hsplit] at hreq hsup ⊢
    rw [List.length_cons, List.range'_succ, List.foldlM_cons, loadSegment, hread', ok_bind]
    have hle : (rs ++ segmentRequests elf e).length ≤
        (rs ++ segmentRequests elf e ++ requests elf es).length := by
      simp only [List.length_append]
      omega
    rcases h.mapAll hs hrs hreq.left (hsup.mono hle) with
      ⟨m₁, hcall, h₁, hrs₁⟩ | ⟨⟨x, hx⟩, r, hr, hnot⟩
    · rw [hcall]
      rcases ih _ _ h₁ hrs₁ hreq hsup hes with hok | ⟨herr, r, hr, hnot⟩
      · exact .inl hok
      · exact .inr ⟨herr, r, List.mem_append_right _ hr, hnot⟩
    · refine .inr ⟨⟨x, ?_⟩, r, List.mem_append_left _ hr, hnot⟩
      rw [hx]
      rfl

end Headers

/-! ## The pages for bss -/

/-- The state of the machine after kalloc_page for some addresses: what was not mapped is in
frames that were free. -/
structure Filled (m : Machine) (pages : List Word) (m' : Machine) : Prop where
  grown : Allocated m m'
  separate : Separate m'
  filled : ∀ a, pdi a ≠ 1023 → m.translate a = none → a.toNat / 0x1000 ≠ 0 →
    (∃ b ∈ pages, SamePage b a) →
      ∃ q, isFreePage m.pmm.bitmap q ∧ m'.translate a = some (frameOf q)
  other : ∀ a, pdi a ≠ 1023 → m.translate a = none →
    (a.toNat / 0x1000 ≠ 0 → ∀ b ∈ pages, ¬ SamePage b a) → m'.translate a = none
  pmm : ∃ k ≤ 2 * pages.length, m'.pmm = taken k m.pmm

section Bss
variable {m m' : Machine} {pages : List Word} {b : Word}

theorem Filled.skip {m'' : Machine} (h : Filled m pages m') (hg : Allocated m' m'')
    (hsep : Separate m'') (ht : ∀ a, m''.translate a = m'.translate a)
    (hpmm : ∃ k ≤ 2, m''.pmm = taken k m'.pmm)
    (hb : ∀ a, pdi a ≠ 1023 → SamePage b a → a.toNat / 0x1000 = 0 ∨
      (m'.translate a).isSome) : Filled m (pages ++ [b]) m'' := by
  obtain ⟨k, hk, hk'⟩ := h.pmm
  obtain ⟨l, hl, hl'⟩ := hpmm
  refine ⟨h.grown.trans hg, hsep, ?_, ?_, k + l, ?_, ?_⟩
  · intro a ha hun h0 hin
    rw [ht]
    apply h.filled a ha hun h0
    by_contra hno
    -- the page is that of `b`, so it is mapped, which only an earlier call can have done
    obtain ⟨c, hc, hsame⟩ := hin
    rcases List.mem_append.mp hc with hc | hc
    · exact hno ⟨c, hc, hsame⟩
    · rw [List.mem_singleton.mp hc] at hsame
      have hsome := (hb a ha hsame).resolve_left h0
      rw [h.other a ha hun fun _ c hc he => hno ⟨c, hc, he⟩] at hsome
      cases hsome
  · intro a ha hun hnot
    rw [ht]
    exact h.other a ha hun fun h0 c hc => hnot h0 c (List.mem_append_left _ hc)
  · rw [List.length_append, List.length_singleton]
    omega
  · rw [hl', hk', taken_add]

theorem Filled.kallocPage (h : Filled m pages m') (hwin : pdi b ≠ 1023)
    (hsup : Supplies m'.pmm 2) :
    ∃ w m'', m'.kallocPage b false true = .ok (w, m'') ∧ Filled m (pages ++ [b]) m'' := by
  have hs' := h.grown.space
  by_cases h0 : b.toNat / 0x1000 = 0
  · refine ⟨0, m', ?_, h.skip (.refl hs') h.separate (fun _ => rfl) ⟨0, by decide, rfl⟩
      fun a _ hsame => .inl (hsame ▸ h0)⟩
    exact if_pos (pageAlign_eq_zero_iff.mpr h0)
  · have hpage : pageAlign b ≠ 0 := fun he => h0 (pageAlign_eq_zero_iff.mp he)
    cases ht : m'.translate b with
    | some f =>
      obtain ⟨hcall, hg⟩ := kallocPage_mapped false true hs' hpage (by rw [ht]; rfl)
        (hsup.mono (by decide))
      refine ⟨0, _, hcall, h.skip hg h.separate (fun _ => rfl) ⟨1, by decide, rfl⟩
        fun a _ hsame => .inr ?_⟩
      rw [← translate_page m' hsame, ht]
      rfl
    | none =>
      have hnew : 1 + newTables m' b ≤ 2 := by
        unfold newTables
        split
        · decide
        · decide
      obtain ⟨m'', f, hcall, hg, hnow, ⟨q, hq, hqf⟩, -, honly, hpmm⟩ :=
        kallocPage_only false true h.separate hs' hpage hwin ht (hsup.mono hnew)
      obtain ⟨k, hk, hk'⟩ := h.pmm
      refine ⟨_, m'', hcall, h.grown.trans hg, honly.separate, ?_, ?_, k + (1 + newTables m' b),
        ?_, ?_⟩
      · intro a ha hun hne hin
        by_cases hsame : SamePage b a
        · refine ⟨q, h.grown.free_before hq, ?_⟩
          rw [← translate_page m'' hsame, hnow, hqf]
        · rw [(honly.other a ha fun he => hsame he.symm).1]
          apply h.filled a ha hun hne
          obtain ⟨c, hc, hca⟩ := hin
          rcases List.mem_append.mp hc with hc | hc
          · exact ⟨c, hc, hca⟩
          · rw [List.mem_singleton.mp hc] at hca
            exact absurd hca hsame
      · intro a ha hun hnot
        have hdiff : ¬ SamePage b a := by
          intro hsame
          by_cases hz : a.toNat / 0x1000 = 0
          · exact h0 (hsame.trans hz)
          · exact hnot hz b (List.mem_append_right _ (.head _)) hsame
        rw [(honly.other a ha fun he => hdiff he.symm).1]
        exact h.other a ha hun fun hz c hc => hnot hz c (List.mem_append_left _ hc)
      · rw [List.length_append, List.length_singleton]
        omega
      · rw [hpmm, hk', taken_add]

/-- A loop of kalloc_page, with two frames for each address as it may need a table. -/
theorem Filled.kallocPages (pages : List Word) (hs : Space m) (hsep : Separate m)
    (hwin : ∀ b ∈ pages, pdi b ≠ 1023) (hsup : Supplies m.pmm (2 * pages.length)) :
    ∃ m', m.kallocPages pages false true = .ok m' ∧ Filled m pages m' := by
  apply foldlM_total (I := fun done m' => Filled m done m')
  · exact ⟨.refl hs, hsep, fun _ _ _ _ ⟨_, hb, _⟩ => absurd hb List.not_mem_nil,
      fun _ _ hun _ => hun, 0, Nat.le_refl _, rfl⟩
  · intro done b rest m' hl h
    obtain ⟨k, hk, hpmm⟩ := h.pmm
    have htwo : Supplies m'.pmm 2 := by
      rw [hl, List.length_append, List.length_cons] at hsup
      rw [hpmm]
      exact (hsup.mono (show k + 2 ≤ _ by omega)).rest
    obtain ⟨w, m'', hcall, h''⟩ :=
      h.kallocPage (hwin b (by rw [hl]; exact List.mem_append_right _ (.head _))) htwo
    exact ⟨m'', by rw [hcall]; rfl, h''⟩

end Bss

/-- The pages of the loop for bss. -/
def bssLoop (start stop : Word) : List Word :=
  (List.range (bssPages start stop).toNat).map fun i =>
    pageAlign (start + ofNat 32 ((i + 1) * 0x1000))

/-- The break that the loader sets. -/
def breakBehind (stop : Word) : Word := pageAlign (stop + 0x1000)

/-- All addresses for which the loader calls kalloc_page. The one of the break is left out if
the process has it as its break already. -/
def bssRequests (brk start stop : Word) : List Word :=
  bssLoop start stop ++
    if (bssLoop start stop).getLastD brk = breakBehind stop then [] else [breakBehind stop]

theorem foldlM_pageAt (l : List Word) (p : Process) : l.foldlM pageAt p = do
    let m ← p.machine.kallocPages (l.map pageAlign) false true
    return ⟨m, (l.map pageAlign).getLastD p.brk⟩ := by
  induction l generalizing p with
  | nil => rfl
  | cons b l ih =>
    rw [List.foldlM_cons, List.map_cons, Machine.kallocPages, List.foldlM_cons, pageAt]
    cases hcall : p.machine.kallocPage (pageAlign b) false true with
    | error e => rfl
    | ok r =>
      rw [ok_bind, pure_bind, ih, List.getLastD_cons]
      rfl

theorem loadBss_eq (start stop : Word) (p : Process) : loadBss start stop p = do
    let m ← p.machine.kallocPages (bssRequests p.brk start stop) false true
    return ⟨m, breakBehind stop⟩ := by
  have hloop : (List.range (bssPages start stop).toNat).foldlM
      (fun p i => pageAt p (start + ofNat 32 ((i + 1) * 0x1000))) p = do
        let m ← p.machine.kallocPages (bssLoop start stop) false true
        return ⟨m, (bssLoop start stop).getLastD p.brk⟩ := by
    have h := foldlM_pageAt ((List.range (bssPages start stop).toNat).map fun i =>
      start + ofNat 32 ((i + 1) * 0x1000)) p
    rw [List.foldlM_map, List.map_map] at h
    exact h
  rw [loadBss, hloop, bssRequests, Machine.kallocPages, Machine.kallocPages, List.foldlM_append,
    bind_assoc, bind_assoc]
  congr 1
  funext m
  change (if (bssLoop start stop).getLastD p.brk ≠ breakBehind stop then _ else _) = _
  by_cases hlast : (bssLoop start stop).getLastD p.brk = breakBehind stop
  · rw [if_pos hlast, if_neg (not_not.mpr hlast), hlast]
    rfl
  · rw [if_neg hlast, if_pos hlast]
    have hone := foldlM_pageAt [stop + 0x1000] ⟨m, (bssLoop start stop).getLastD p.brk⟩
    rw [List.foldlM_cons] at hone
    simp only [List.foldlM_nil, bind_pure] at hone
    exact hone

end TapiOS.Task.Elf
