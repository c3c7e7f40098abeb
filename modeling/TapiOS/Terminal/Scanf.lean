import TapiOS.Terminal.Modes

/-!
# Templates of ksscanf, util/util.c

A format is a list of literal bytes and `%u` directives. `ksscanfIn` is ksscanf on the bytes
that may be read: to read behind them is `none`.
-/
namespace TapiOS.Tty

open Lib Util
open BitVec (ofNat)

inductive Piece where
  | literal (c : Byte)
  | number

def Piece.format : Piece → List Byte
  | .literal c => [c]
  | .number => [ch '%', ch 'u']

def template (ps : List Piece) : List Byte := ps.flatMap Piece.format

/-- How many `%u` there are. -/
def numbers : List Piece → Nat
  | [] => 0
  | .literal _ :: ps => numbers ps
  | .number :: ps => numbers ps + 1

/-- `str` is the pieces, with maximal runs `ds` of digits for the directives, and `rest`. -/
def Matches : List Piece → List Byte → List Digits → List Byte → Prop
  | [], str, ds, rest => ds = [] ∧ str = rest
  | .literal c :: ps, str, ds, rest => ∃ s, str = c :: s ∧ Matches ps s ds rest
  | .number :: ps, str, ds, rest => ∃ d es s, ds = d :: es ∧ str = d.list ++ s ∧
      (∀ c ∈ s.head?, isdigit c = false) ∧ Matches ps s es rest

/-- The value of decimal digits. -/
def decimal : List Byte → Nat
  | [] => 0
  | d :: ds => (d.toNat - 48) * 10 ^ ds.length + decimal ds

def ksscanfIn : List Byte → List Byte → List Word → Option (Option (List Word × List Byte))
  | [], sp, args => some (some (args, sp))
  | [p], sp, args =>
    match sp with
    | [] => none
    | b :: sp => some (if p = b then some (args, sp) else none)
  | p :: c :: fmt, sp, args =>
    if p = ch '%' then
      if c = ch 'u' then
        match sp.dropWhile isdigit with
        | [] => none
        | b :: rest =>
          let digits := sp.takeWhile isdigit
          if digits = [] then if c = b then ksscanfIn fmt rest args else some none
          else ksscanfIn fmt (b :: rest) (args ++ [katoi digits])
      else ksscanfIn fmt sp args
    else
      match sp with
      | [] => none
      | b :: rest => if p = b then ksscanfIn (c :: fmt) rest args else some none

/-- What ksscanf returns. -/
def elems : Option (List Word × List Byte) → Nat
  | none => 0
  | some (args, _) => args.length

section Reads
variable {sp : List Byte}

theorem zero_mem_dropWhile (h : 0 ∈ sp) : 0 ∈ sp.dropWhile isdigit := by
  rw [← List.takeWhile_append_dropWhile (p := isdigit) (l := sp), List.mem_append] at h
  exact h.resolve_left fun h0 => absurd (List.all_eq_true.mp List.all_takeWhile 0 h0) (by decide)

/-- A format without NUL is never compared with what stands behind a NUL. -/
theorem ksscanfIn_eq (fmt : List Byte) (args : List Word) (hf : 0 ∉ fmt) (h : 0 ∈ sp) :
    ksscanfIn fmt sp args = some (ksscanf fmt sp args) := by
  fun_induction ksscanfIn fmt sp args with
  | case1 => rfl
  | case2 | case9 => cases h
  | case3 => rfl
  | case4 fmt sp args hdrop => simpa [hdrop] using zero_mem_dropWhile h
  | case5 fmt sp args rest digits hd hdrop ih =>
    have hsp := List.takeWhile_append_dropWhile (p := isdigit) (l := sp)
    rw [show sp.takeWhile isdigit = [] from hd, hdrop] at hsp
    subst hsp
    exact ih (fun h0 => hf (.tail _ (.tail _ h0))) (List.mem_of_ne_of_mem (by decide) h)
  | case6 fmt sp args b rest hdrop digits hd hb =>
    have hsp := List.takeWhile_append_dropWhile (p := isdigit) (l := sp)
    rw [show sp.takeWhile isdigit = [] from hd, hdrop] at hsp
    subst hsp
    exact congrArg some ((if_pos hd).trans (if_neg hb)).symm
  | case7 fmt sp args b rest hdrop digits hd ih =>
    rw [ksscanf]
    rw [if_neg hd, hdrop]
    exact ih (fun h0 => hf (.tail _ (.tail _ h0))) (hdrop ▸ zero_mem_dropWhile h)
  | case8 c fmt sp args hc ih =>
    rw [ksscanf, if_neg hc]
    exact ih (fun h0 => hf (.tail _ (.tail _ h0))) h
  | case10 c fmt args b rest hb ih =>
    rw [ksscanf_literal hb, if_pos rfl]
    exact ih (fun h0 => hf (.tail _ h0))
      (List.mem_of_ne_of_mem (fun he => hf (by simp [← he])) h)
  | case11 p c fmt args hp b rest hb => rw [ksscanf_literal hp, if_neg hb]

end Reads

theorem isdigit_iff {d : Byte} : isdigit d ↔ 48 ≤ d.toNat ∧ d.toNat ≤ 57 := by
  simp [isdigit, BitVec.le_def]

theorem katoi_eq {l : List Byte} (h : ∀ d ∈ l, isdigit d) :
    katoi l = ofNat 32 (decimal l) := by
  rw [katoi, if_pos (List.all_eq_true.mpr h)]
  induction l with
  | nil => rfl
  | cons d l ih =>
    have hd := (isdigit_iff.mp (h d (.head _))).1
    have hval : (d - 48).setWidth 32 = ofNat 32 (d.toNat - 48) := by
      apply BitVec.eq_of_toNat_eq
      simp [BitVec.toNat_sub]
      omega
    have hpow (k : Nat) (x : Word) : (fun val => val * 10)^[k] x = x * ofNat 32 (10 ^ k) := by
      induction k generalizing x with
      | zero => simp
      | succ k ihk =>
        rw [Function.iterate_succ_apply, ihk, Nat.pow_succ', BitVec.ofNat_mul, BitVec.mul_assoc]
        rfl
    rw [katoiSum, ih fun e he => h e (by simp [he]), hval, hpow, decimal, BitVec.ofNat_add,
      BitVec.ofNat_mul]

section Match
variable {ps : List Piece} {str rest : List Byte} {ds : List Digits} {args args' : List Word}
  {c : Byte} {out : List Byte}

/-- A literal piece is one byte that is no `%` and no NUL. -/
def Piece.Plain : Piece → Prop
  | .literal c => c ≠ ch '%' ∧ c ≠ 0
  | .number => True

theorem template_cons (p : Piece) : template (p :: ps) = p.format ++ template ps := rfl

theorem count_template (h : ∀ p ∈ ps, p.Plain) : (template ps).count (ch '%') = numbers ps := by
  induction ps with
  | nil => rfl
  | cons p ps ih =>
    have hrest := ih fun q hq => h q (by simp [hq])
    rw [template_cons, List.count_append, hrest]
    cases p with
    | literal c => simp [Piece.format, numbers, (h _ (List.mem_cons_self ..)).1]
    | number => exact Nat.add_comm _ _

theorem zero_notMem_template (h : ∀ p ∈ ps, p.Plain) : 0 ∉ template ps := by
  intro h0
  obtain ⟨p, hp, hmem⟩ := List.mem_flatMap.mp h0
  cases p with
  | literal c => exact (h _ hp).2 (List.mem_singleton.mp hmem).symm
  | number => exact absurd hmem (by decide)

theorem ksscanf_piece (hp : (Piece.literal c).Plain) (a : Byte) (sp : List Byte) :
    ksscanf (template (.literal c :: ps)) (a :: sp) args =
      if c = a then ksscanf (template ps) sp args else none := ksscanf_literal hp.1 a sp

/-- What follows a number, with the NUL at the end, begins with a byte that is no digit. -/
theorem cons_of_head (h : ∀ c ∈ str.head?, isdigit c = false) :
    ∃ c s, str ++ [0] = c :: s ∧ isdigit c = false := by
  cases str with
  | nil => exact ⟨0, [], rfl, rfl⟩
  | cons c s => exact ⟨c, s ++ [0], rfl, h c rfl⟩

theorem ksscanf_run (d : Digits) (h : ∀ c ∈ str.head?, isdigit c = false) :
    ksscanf (template (.number :: ps)) (d.list ++ str ++ [0]) args =
      ksscanf (template ps) (str ++ [0]) (args ++ [d.value]) := by
  obtain ⟨c, s, hc, hdigit⟩ := cons_of_head h
  rw [List.append_assoc, hc]
  exact ksscanf_digits d hdigit

theorem ksscanf_of_matches (hp : ∀ p ∈ ps, p.Plain) (h : Matches ps str ds rest) :
    ksscanf (template ps) (str ++ [0]) args = some (args ++ ds.map Digits.value, rest ++ [0]) := by
  induction ps generalizing str ds args with
  | nil =>
    obtain ⟨rfl, rfl⟩ := h
    simp [template, ksscanf]
  | cons p ps ih =>
    have hps : ∀ q ∈ ps, q.Plain := fun q hq => hp q (by simp [hq])
    cases p with
    | literal c =>
      obtain ⟨s, rfl, hm⟩ := h
      rw [List.cons_append, ksscanf_piece (hp _ (List.mem_cons_self ..)), if_pos rfl]
      exact ih hps hm
    | number =>
      obtain ⟨d, es, s, rfl, rfl, hs, hm⟩ := h
      rw [ksscanf_run d hs, ih hps hm, List.append_assoc]
      rfl

/-- A `%u` that meets no digits is never made up for. -/
theorem matches_of_ksscanf (hp : ∀ p ∈ ps, p.Plain)
    (h : ksscanf (template ps) (str ++ [0]) args = some (args', out))
    (hlen : args'.length = args.length + numbers ps) : ∃ ds rest, Matches ps str ds rest := by
  induction ps generalizing str args with
  | nil => exact ⟨[], str, rfl, rfl⟩
  | cons p ps ih =>
    have hps : ∀ q ∈ ps, q.Plain := fun q hq => hp q (by simp [hq])
    cases p with
    | literal c =>
      have hc := hp _ (List.mem_cons_self ..)
      cases str with
      | nil =>
        rw [List.nil_append, ksscanf_piece hc, if_neg hc.2] at h
        cases h
      | cons a s =>
        rw [List.cons_append, ksscanf_piece hc] at h
        split at h
        · next he =>
          obtain ⟨ds, rest, hm⟩ := ih hps h hlen
          exact ⟨ds, rest, s, by rw [he], hm⟩
        · cases h
    | number =>
      have hstr := List.takeWhile_append_dropWhile (p := isdigit) (l := str)
      have hhead : ∀ c ∈ (str.dropWhile isdigit).head?, isdigit c = false := by
        intro c hc
        have hnot := List.head?_dropWhile_not isdigit str
        rw [Option.mem_def.mp hc] at hnot
        simpa using hnot
      by_cases hd : str.takeWhile isdigit = []
      · rw [hd, List.nil_append] at hstr
        obtain ⟨c, s, hc, hdigit⟩ := cons_of_head (hstr ▸ hhead)
        rw [hc] at h
        have hskip := (ksscanf_noDigits hdigit).symm.trans h
        split at hskip
        · have hle : args'.length ≤ args.length + (template ps).count (ch '%') :=
            ksscanf_length _ _ _ hskip
          rw [count_template hps] at hle
          rw [numbers] at hlen
          omega
        · cases hskip
      · let d : Digits := ⟨str.takeWhile isdigit, hd, List.all_eq_true.mp List.all_takeWhile⟩
        have hd' : d.list ++ str.dropWhile isdigit = str := hstr
        rw [← hd', ksscanf_run d hhead] at h
        have hmore : args'.length = (args ++ [d.value]).length + numbers ps := by
          rw [hlen, numbers, List.length_append, List.length_singleton]
          omega
        obtain ⟨es, rest, hm⟩ := ih hps h hmore
        exact ⟨d :: es, rest, d, es, _, rfl, hstr.symm, hhead, hm⟩

theorem Matches.length (h : Matches ps str ds rest) : ds.length = numbers ps := by
  induction ps generalizing str ds with
  | nil => exact congrArg List.length h.1
  | cons p ps ih =>
    cases p with
    | literal c =>
      obtain ⟨s, -, hm⟩ := h
      exact ih hm
    | number =>
      obtain ⟨d, es, s, rfl, -, -, hm⟩ := h
      exact congrArg (· + 1) (ih hm)

end Match

/-- As many numbers are returned as there are directives if and only if the string begins with
the format; they are the values of its runs of digits, and nothing is read behind its NUL. -/
theorem ksscanf_accepts_templates {ps : List Piece} {str : List Byte}
    (hp : ∀ p ∈ ps, p.Plain) (hn : 1 ≤ numbers ps) :
    ∃ r, ksscanfIn (template ps) (str ++ [0]) [] = some r ∧
      (elems r = numbers ps ↔ ∃ ds rest, Matches ps str ds rest) ∧
      ∀ ds rest, Matches ps str ds rest →
        r = some (ds.map fun d => ofNat 32 (decimal d.list), rest ++ [0]) := by
  have hmatch : ∀ ds rest, Matches ps str ds rest → ksscanf (template ps) (str ++ [0]) [] =
      some (ds.map fun d => ofNat 32 (decimal d.list), rest ++ [0]) := by
    intro ds rest h
    have hvalues : ds.map Digits.value = ds.map fun d => ofNat 32 (decimal d.list) :=
      List.map_congr_left fun d _ => katoi_eq d.digits
    rw [ksscanf_of_matches hp h, List.nil_append, hvalues]
  refine ⟨_, ksscanfIn_eq _ _ (zero_notMem_template hp) (by simp), ⟨fun h => ?_, ?_⟩, hmatch⟩
  · cases hr : ksscanf (template ps) (str ++ [0]) [] with
    | none =>
      rw [hr, elems] at h
      omega
    | some r =>
      rw [hr] at h
      exact matches_of_ksscanf hp hr (h.trans (Nat.zero_add _).symm)
  · intro ⟨ds, rest, h⟩
    rw [hmatch ds rest h, elems, List.length_map]
    exact h.length

/-- `%u;` and the string `12;`. -/
theorem ksscanf_accepts_twelve : ∃ r, ksscanfIn (template [.number, .literal (ch ';')])
      ([ch '1', ch '2', ch ';'] ++ [0]) [] = some r ∧
    (elems r = 1 ↔ ∃ ds rest,
      Matches [.number, .literal (ch ';')] [ch '1', ch '2', ch ';'] ds rest) ∧
    ∀ ds rest, Matches [.number, .literal (ch ';')] [ch '1', ch '2', ch ';'] ds rest →
      r = some (ds.map fun d => ofNat 32 (decimal d.list), rest ++ [0]) :=
  ksscanf_accepts_templates (by simp [Piece.Plain, ch]) (Nat.le_refl 1)

end TapiOS.Tty
