import MiniOs.Xv6.UserCopy

/-!
# New programs

`sys_exec` and `kexec`. The arguments are fetched from the memory of the old program into pages of
the kernel, a new page table is made beside the old one, the segments of the file are loaded into
it, the arguments are pushed onto the new stack, and then the old memory is freed. If anything fails
before that, all the new pages are freed instead and the old program goes on.

The file is given by its program headers of type `ELF_PROG_LOAD`, each with the bytes from its
offset on; a header that cannot be read is `none`.
-/

namespace MiniOs.Xv6.Vm

open RadixTree PagedMemory

variable {k : ℕ} {pte : Pte}

section Model

def MAXARG : ℕ := 32

/-- A loadable program header, and the bytes of the file from its offset on. -/
structure Segment where
  vaddr : ℕ
  filesz : ℕ
  memsz : ℕ
  w : Bool
  x : Bool
  data : List UInt8

/-- `loadseg` for `sz` bytes from page `k` on, in so many pages. The Boolean is false if it returns
    -1. -/
def loadseg (m : Phys) (t : Table) (k sz : ℕ) (data : List UInt8) : ℕ → Option (Phys × Bool)
  | 0 => some (m, true)
  | n + 1 =>
    match walkaddr t k with
    | none => none
    | some pg =>
      let len := min PGSIZE sz
      let m := m.write pg (splice (m.mem pg) 0 (data.take len))
      if (data.take len).length = len then loadseg m t (k + 1) (sz - len) (data.drop len) n
      else some (m, false)

/-- The loop of `kexec` over the program headers. The Boolean is false if it goes to `bad`. -/
def segLoop (m : Phys) (t : Table) (sz : ℕ) :
    List (Option Segment) → Option (Phys × Table × ℕ × Bool)
  | [] => some (m, t, sz, true)
  | none :: _ => some (m, t, sz, false)
  | some g :: gs =>
    if g.memsz < g.filesz ∨ g.vaddr + g.memsz ≥ 18446744073709551616 ∨ g.vaddr % PGSIZE ≠ 0 then
      some (m, t, sz, false)
    else
      (uvmalloc m t sz (g.vaddr + g.memsz) ⟨true, g.w, g.x, true⟩).bind fun y =>
        if y.2.2 = 0 then some (y.1, y.2.1, sz, false)
        else
          -- `loadseg` takes the size as an `uint`
          (loadseg y.1 y.2.1 (g.vaddr / PGSIZE) (g.filesz % 4294967296) g.data
              (roundUp (g.filesz % 4294967296))).bind fun z =>
            if z.2 = true then segLoop z.1 y.2.1 y.2.2 gs else some (z.1, y.2.1, y.2.2, false)

/-- `copyout` to a table that is not that of the process. Where `walkaddr` fails there is no result:
    `vmfault` would map the page in the table of the process. -/
def copyoutNew : ℕ → Phys → Table → ℕ → List UInt8 → Option (Phys × Bool)
  | 0, m, _, _, _ => some (m, true)
  | fuel + 1, m, t, dst, src =>
    if src = [] then some (m, true)
    else if dst / PGSIZE ≥ MAXVA then some (m, false)
    else
      match walkaddr t (dst / PGSIZE), lookup t (dst / PGSIZE) with
      | some pg, some pte =>
        if pte.perm.w = false then some (m, false)
        else
          let n := min (PGSIZE - dst % PGSIZE) src.length
          copyoutNew fuel (m.write pg (splice (m.mem pg) (dst % PGSIZE) (src.take n))) t
            (dst / PGSIZE * PGSIZE + PGSIZE) (src.drop n)
      | _, _ => none

def cstr (c : Content) : List UInt8 :=
  (pageSlice c 0 PGSIZE).takeWhile (· ≠ 0)

/-- The loop of `kexec` over the arguments, whose strings are in pages of the kernel: the stack
    pointer and `ustack`, if it does not go to `bad`. -/
def pushStrings (t : Table) (stackbase : ℕ) :
    Phys → ℕ → ℕ → List ℕ → Option (Phys × Option (ℕ × List ℕ))
  | m, sp, _, [] => some (m, some (sp, []))
  | m, sp, argc, pg :: argv =>
    if argc ≥ MAXARG then some (m, none)
    else
      let str := cstr (m.mem pg) ++ [0]
      let sp := sp - str.length
      let sp := sp - sp % 16
      if sp < stackbase then some (m, none)
      else
        (copyoutNew str.length m t sp str).bind fun x =>
          if x.2 = true then
            (pushStrings t stackbase x.1 sp (argc + 1) argv).map fun y =>
              (y.1, y.2.map fun z => (z.1, sp :: z.2))
          else some (x.1, none)

/-- The new stack: the strings, and below them `ustack`. -/
def pushArgs (m : Phys) (t : Table) (sz : ℕ) (argv : List ℕ) : Option (Phys × Option ℕ) :=
  (pushStrings t (sz - PGSIZE) m sz 0 argv).bind fun x =>
    match x.2 with
    | none => some (x.1, none)
    | some (sp, ustack) =>
      let bytes := (ustack ++ [0]).flatMap (leBytes 8)
      let sp := sp - bytes.length
      let sp := sp - sp % 16
      if sp < sz - PGSIZE then some (x.1, none)
      else
        (copyoutNew bytes.length x.1 t sp bytes).map fun y =>
          (y.1, if y.2 = true then some sp else none)

def execBad (m : Phys) (s : Space) (t : Table) (sz : ℕ) :
    Option (Phys × Space × Option (ℕ × ℕ)) :=
  (procFreepagetable m t sz).map fun m => (m, s, none)

variable (trampoline : ℕ)

/-- `kexec`; there is no file if it cannot be opened or is no program. The result is `argc` and
    `argv`, if it does not return -1. -/
def kexec (m : Phys) (s : Space) (file : Option (List (Option Segment))) (argv : List ℕ) :
    Option (Phys × Space × Option (ℕ × ℕ)) :=
  match file with
  | none => some (m, s, none)
  | some gs =>
    (procPagetable trampoline m s.trapframe).bind fun x =>
      match x.2 with
      | none => some (x.1, s, none)
      | some t =>
        (segLoop x.1 t 0 gs).bind fun y =>
          if y.2.2.2 = false then execBad y.1 s y.2.1 y.2.2.1
          else
            -- a guard page and a page for the stack
            (uvmalloc y.1 y.2.1 (roundUp y.2.2.1 * PGSIZE) ((roundUp y.2.2.1 + 2) * PGSIZE)
                dataPerm).bind fun z =>
              if z.2.2 = 0 then execBad z.1 s z.2.1 (roundUp y.2.2.1 * PGSIZE)
              else
                (uvmclear z.2.1 (z.2.2 / PGSIZE - 2)).bind fun t' =>
                  (pushArgs z.1 t' z.2.2 argv).bind fun v =>
                    match v.2 with
                    | none => execBad v.1 s t' z.2.2
                    | some sp =>
                      (procFreepagetable v.1 s.table s.sz).map fun m =>
                        (m, { s with table := t', sz := z.2.2 }, some (argv.length, sp))

def fetchaddr (m : Phys) (s : Space) (addr : ℕ) : Option (Phys × Space × Option ℕ) :=
  if addr ≥ s.sz ∨ addr + 8 > s.sz then some (m, s, none)
  else (copyin m s addr 8).map fun x => (x.1, x.2.1, x.2.2.map ofBytes)

/-- The loop of `sys_exec` over the arguments from `uargv` on: the pages of the kernel that it has
    filled, and whether it has come to the end. -/
def fetchArgs : ℕ → Phys → Space → ℕ → Option (Phys × Space × List ℕ × Bool)
  | 0, m, s, _ => some (m, s, [], false)
  | n + 1, m, s, uargv =>
    (fetchaddr m s uargv).bind fun x =>
      match x.2.2 with
      | none => some (x.1, x.2.1, [], false)
      | some uarg =>
        if uarg = 0 then some (x.1, x.2.1, [], true)
        else
          match kalloc x.1 with
          | none => some (x.1, x.2.1, [], false)
          | some (pg, m) =>
            match copyinstr m x.2.1.table uarg PGSIZE with
            | none => some (m, x.2.1, [pg], false)
            | some str =>
              (fetchArgs n (m.write pg (splice (m.mem pg) 0 (str ++ [0]))) x.2.1 (uargv + 8)).map
                fun y => (y.1, y.2.1, pg :: y.2.2.1, y.2.2.2)

def sysExec (m : Phys) (s : Space) (file : Option (List (Option Segment))) (uargv : ℕ) :
    Option (Phys × Space × Option (ℕ × ℕ)) :=
  (fetchArgs MAXARG m s uargv).bind fun x =>
    (if x.2.2.2 = true then kexec trampoline x.1 x.2.1 file x.2.2.1
      else some (x.1, x.2.1, none)).bind fun y =>
        (x.2.2.1.foldlM kfree y.1).map fun m => (m, y.2)

end Model

/-! ### What a program finds -/

/-- The segments are written over each other, in order. -/
def image (f : ℕ → UInt8) : List (Option Segment) → ℕ → UInt8
  | [] => f
  | none :: gs => image f gs
  | some g :: gs => image (patch f g.vaddr (g.data.take g.filesz)) gs

/-- The strings that are the arguments at `a`: an array of pointers with a null pointer at its
    end. -/
def Argv (f : ℕ → UInt8) : ℕ → List (List UInt8) → Prop
  | a, [] => word f a = 0
  | a, str :: strs => word f a ≠ 0 ∧ 0 ∉ str ∧
      slice f (word f a) (str.length + 1) = str ++ [0] ∧ Argv f (a + 8) strs

/-- A program has been started with memory `f` of size `sz`, and `argc` and `argv` in its registers:
    its segments are below the stack, zeros are where the file says nothing, and the arguments are
    on the stack. -/
structure Started (gs : List (Option Segment)) (strs : List (List UInt8)) (f : ℕ → UInt8)
    (sz argc argv : ℕ) : Prop where
  segments : ∀ g, some g ∈ gs → g.vaddr + g.memsz + 2 * PGSIZE ≤ sz
  bytes : ∀ a, a + PGSIZE < sz → f a = image (fun _ => 0) gs a
  count : argc = strs.length
  strings : Argv f argv strs
  stack : sz ≤ argv + PGSIZE ∧ argv < sz ∧ argv % 16 = 0

/-- What `kexec` has done with process `s`: it has started the program, or changed nothing. -/
structure Execed (m : Phys) (s : Space) (file : Option (List (Option Segment)))
    (strs : List (List UInt8)) (m' : Phys) (s' : Space) (o : Option (ℕ × ℕ)) : Prop where
  turned : Turned m s m' s'
  failed : o = none → s'.sz = s.sz ∧ s'.bytes m' = s.bytes m
  started : ∀ x, o = some x → ∃ gs, file = some gs ∧
    Started gs strs (s'.bytes m') s'.sz x.1 x.2

variable {m m' m₀ : Phys} {t t' : Table} {s : Space} {va pg n : ℕ}

/-! ### Drafts as processes -/

theorem le_of_roundUp {sz : ℕ} (h : roundUp sz ≤ n) : sz ≤ n * PGSIZE := by
  rw [roundUp, PGSIZE] at h
  rw [PGSIZE]
  omega

theorem Draft.mine {sz : ℕ} (h : Draft m₀ m t (roundUp sz)) (trapframe : ℕ) (hpool : Pool m₀) :
    Mine m ⟨trapframe, t, sz⟩ where
  once := (h.fine hpool).once
  owns pg hpg := by
    rw [Phys.owns, h.kend]
    exact hpool.owns pg (h.mem_free hpg)
  keyed := h.keyed
  size := le_of_roundUp h.keyed.bound

theorem Draft.turned {sz sz' trapframe : ℕ} (h : Draft m₀ m t (roundUp sz))
    (hturned : Turned m ⟨trapframe, t, sz⟩ m' ⟨trapframe, t', sz'⟩) :
    Draft m₀ m' t' (roundUp sz') where
  kend := hturned.kend.trans h.kend
  held pg := (hturned.held pg).trans (h.held pg)
  mem pg hpg := by
    rw [hturned.mem pg, h.mem pg hpg]
    rw [h.held, List.count_eq_zero]
    exact hpg
  keyed := hturned.keyed

/-- All pages below `n` are mapped, for the user. -/
def Dense (t : Table) (n : ℕ) : Prop :=
  ∀ k < n, ∃ pte, lookup t k = some pte ∧ pte.perm.u = true

theorem Dense.filled {perm : Perm} {c : Content} {b : ℕ} (h : Dense t n)
    (hfilled : Filled m t (fun _ => some (perm, c)) n b m' t') (hb : n ≤ KEYS)
    (hu : perm.u = true) : Dense t' b := by
  intro k hk
  by_cases hin : n ≤ k
  · obtain ⟨pg, -, hlookup, -⟩ := hfilled.some k perm c hin hk rfl
    exact ⟨_, hlookup, hu⟩
  · rw [hfilled.old k (by omega) (by omega)]
    exact h k (by omega)

theorem Dense.walkaddr (h : Dense t n) (hn : n ≤ TRAPFRAME) (hk : k < n) :
    ∃ pte, lookup t k = some pte ∧ walkaddr t k = some pte.page := by
  have hmax : TRAPFRAME < MAXVA := by decide
  obtain ⟨pte, hlookup, hu⟩ := h k hk
  refine ⟨pte, hlookup, ?_⟩
  rw [Vm.walkaddr, if_pos (by omega), hlookup, Option.bind_some, if_pos hu]

/-- **Memory runs out before addresses do**: the pages of a table without gaps are different pages
    of physical memory. -/
theorem Dense.le {b : ℕ} (hdense : Dense t b) (hpool : Pool m₀)
    (hheld : ∀ pg, held m t pg = m₀.free.count pg) : b ≤ PHYSTOP := by
  by_contra hgt
  have hframe : PHYSTOP + 1 < TRAPFRAME := by decide
  let page : ℕ → ℕ := fun k => (lookup t k).elim 0 Pte.page
  have hpage : ∀ k ∈ Finset.range (PHYSTOP + 1),
      k < TRAPFRAME ∧ ∃ pte, lookup t k = some pte ∧ page k = pte.page := by
    intro k hk
    have hlt := Finset.mem_range.mp hk
    obtain ⟨pte, hlookup, -⟩ := hdense k (by omega)
    exact ⟨by omega, pte, hlookup, by simp only [page, hlookup, Option.elim_some]⟩
  have hcard : (Finset.range (PHYSTOP + 1)).card ≤ (Finset.range PHYSTOP).card := by
    refine Finset.card_le_card_of_injOn page (fun k hk => ?_) fun j hj k hk heq => ?_
    · obtain ⟨hlt, pte, hlookup, hk'⟩ := hpage k hk
      have hpos := leafUses_pos hlt hlookup
      have hcount := hheld pte.page
      rw [held] at hcount
      rw [hk']
      exact Finset.mem_coe.mpr (Finset.mem_range.mpr
        (hpool.owns _ (List.count_pos_iff.mp (by omega))).2)
    · obtain ⟨hlt, pte, hlookup, hj'⟩ := hpage j hj
      obtain ⟨hlt', pte', hlookup', hk'⟩ := hpage k hk
      have hcount := hheld pte.page
      have honce := hpool.once pte.page
      rw [held] at hcount
      exact eq_of_lookup hlt hlt' hlookup hlookup' (by rw [← hk', ← heq, hj']) (by omega)
  rw [Finset.card_range, Finset.card_range] at hcard
  omega

/-- A draft without gaps, and the bytes in it. -/
structure Sheet (m₀ m : Phys) (t : Table) (sz : ℕ) (f : ℕ → UInt8) : Prop where
  draft : Draft m₀ m t (roundUp sz)
  dense : Dense t (roundUp sz)
  bytes : Space.bytes ⟨0, t, sz⟩ m = f

variable {f : ℕ → UInt8} {sz : ℕ}

theorem Sheet.le (h : Sheet m₀ m t sz f) (hpool : Pool m₀) : roundUp sz ≤ PHYSTOP :=
  h.dense.le hpool h.draft.held

theorem Sheet.uvmalloc (h : Sheet m₀ m t n f) (hpool : Pool m₀) (perm : Perm) (hsz : n ≤ sz)
    (hu : perm.u = true) :
    ∃ m' t' r, Vm.uvmalloc m t n sz perm = some (m', t', r) ∧
      (r = sz ∧ Sheet m₀ m' t' sz f ∧ (∀ k, roundUp n ≤ k → k < roundUp sz →
        ∃ pg, lookup t' k = some ⟨pg, perm⟩) ∨ r = 0 ∧ Sheet m₀ m' t' n f) := by
  have hkeys : TRAPFRAME < KEYS := by decide
  have hstop : PHYSTOP < TRAPFRAME := by decide
  have hmine : Mine m ⟨0, t, n⟩ := h.draft.mine 0 hpool
  have hlo : roundUp n ≤ TRAPFRAME := h.draft.keyed.bound
  have hempty : ∀ k, roundUp n ≤ k → k < TRAPFRAME → lookup t k = none := fun k =>
    h.draft.keyed.lookup_eq_none
  have hroom : ∀ {b : ℕ} {m' : Phys} {t' : Table},
      Filled m t (fun _ => some (perm, memset 0)) (roundUp n) b m' t' →
        Dense t' b ∧ b < TRAPFRAME := by
    intro b m' t' hfilled
    have hd : Dense t' b := h.dense.filled hfilled (by omega) hu
    exact ⟨hd, (hd.le hpool fun pg => (hfilled.held pg).trans (h.draft.held pg)).trans_lt hstop⟩
  obtain ⟨m', t', r, halloc, hresult⟩ := uvmalloc_spec perm (h.draft.fine hpool) hsz
    hempty fun b m' t' _ _ hfilled => (hroom hfilled).2
  refine ⟨m', t', r, halloc, ?_⟩
  -- the new pages hold zeros
  have hbytes : ∀ {sz : ℕ}, n ≤ sz →
      Filled m t (fun _ => some (perm, memset 0)) (roundUp n) (roundUp sz) m' t' →
        Space.bytes ⟨0, t', sz⟩ m' = f := by
    intro sz hsz hfilled
    have hlt := (hroom hfilled).2
    rw [← h.bytes, Space.bytes, Space.bytes]
    exact congrArg flat (funext (hmine.contents_filled hfilled (fun _ => ⟨_, rfl⟩)
      (fun k hk hk' => hempty k hk (by omega)) hsz (le_of_roundUp hlt.le)))
  obtain ⟨rfl, hfilled⟩ | ⟨rfl, hfilled⟩ := hresult
  · obtain ⟨hdense, hlt⟩ := hroom hfilled
    refine .inl ⟨rfl, ⟨h.draft.filled hfilled (roundUp_mono hsz) hlt.le, hdense,
      hbytes hsz hfilled⟩, fun k hk hk' => ?_⟩
    obtain ⟨pg, -, hlookup, -⟩ := hfilled.some k perm _ hk hk' rfl
    exact ⟨pg, hlookup⟩
  · exact .inr ⟨rfl, h.draft.filled hfilled le_rfl hlo, (hroom hfilled).1, hbytes le_rfl hfilled⟩

/-! ### The file -/

theorem loadseg_spec {fsz : ℕ} (data : List UInt8) (h : Sheet m₀ m t sz f) (hpool : Pool m₀)
    (hn : n = roundUp fsz) (hk : k + n ≤ roundUp sz) :
    ∃ m' ok, loadseg m t k fsz data n = some (m', ok) ∧
      ∃ f', Sheet m₀ m' t sz f' ∧ (ok = true → f' = patch f (k * PGSIZE) (data.take fsz)) := by
  induction n generalizing m f k fsz data with
  | zero =>
    have hzero : fsz = 0 := by
      have hle := le_of_roundUp hn.ge
      omega
    exact ⟨m, true, rfl, f, h, fun _ => by rw [hzero, List.take_zero, patch_nil]⟩
  | succ n ih =>
    obtain ⟨pte, hlookup, hwalk⟩ :=
      h.dense.walkaddr h.draft.keyed.bound (show k < roundUp sz by omega)
    obtain ⟨len, hlen⟩ : ∃ len, len = min PGSIZE fsz := ⟨_, rfl⟩
    have htake : (data.take len).length ≤ PGSIZE := by
      rw [List.length_take]
      omega
    have hwrite := (h.draft.mine 0 hpool).write_bytes (k := k) (by dsimp only; omega) hlookup 0
      (data.take len) (by rw [Nat.zero_add]; exact htake)
    rw [Nat.add_zero, h.bytes] at hwrite
    have hsheet : Sheet m₀ (m.write pte.page (splice (m.mem pte.page) 0 (data.take len))) t sz
        (patch f (k * PGSIZE) (data.take len)) :=
      ⟨h.draft.turned hwrite.1, h.dense, hwrite.2⟩
    simp only [loadseg, hwalk, ← hlen]
    split
    · next hfull =>
      have hrest : n = roundUp (fsz - len) := by
        rw [roundUp, PGSIZE] at hn ⊢
        rw [PGSIZE] at hlen
        omega
      obtain ⟨m', ok, hload, f', hsheet', hf'⟩ :=
        ih (k := k + 1) (data.drop len) hsheet hrest (by omega)
      refine ⟨m', ok, hload, f', hsheet', fun hok => ?_⟩
      rw [hf' hok, show fsz = len + (fsz - len) by omega, List.take_add, patch_append, hfull,
        Nat.add_sub_cancel_left]
      obtain hlast | hnext : fsz - len = 0 ∨ len = PGSIZE := by omega
      · rw [hlast, List.take_zero, patch_nil, patch_nil]
      · rw [hnext, Nat.succ_mul]
    · exact ⟨_, false, rfl, _, hsheet, by simp⟩

/-- `uvmalloc` for a segment, which may also lie below the pages that there are. -/
theorem Sheet.extend (h : Sheet m₀ m t n f) (hpool : Pool m₀) (perm : Perm) (hu : perm.u = true)
    (sz : ℕ) : ∃ m' t' r, Vm.uvmalloc m t n sz perm = some (m', t', r) ∧
      (r ≠ 0 → n ≤ r ∧ sz ≤ r ∧ Sheet m₀ m' t' r f) ∧ (r = 0 → Sheet m₀ m' t' n f) := by
  by_cases hlt : sz < n
  · exact ⟨m, t, n, if_pos hlt, fun _ => ⟨le_rfl, hlt.le, h⟩, fun _ => h⟩
  · obtain ⟨m', t', r, halloc, hresult⟩ := h.uvmalloc hpool perm (Nat.le_of_not_lt hlt) hu
    refine ⟨m', t', r, halloc, fun hr => ?_, fun hr => ?_⟩
    · obtain ⟨rfl, hsheet, -⟩ | ⟨rfl, -⟩ := hresult
      · exact ⟨Nat.le_of_not_lt hlt, le_rfl, hsheet⟩
      · exact absurd rfl hr
    · obtain ⟨rfl, hsheet, -⟩ | ⟨-, hsheet⟩ := hresult
      · have hn : n = r := by omega
        rwa [hn]
      · exact hsheet

theorem segLoop_spec (gs : List (Option Segment)) (h : Sheet m₀ m t n f) (hpool : Pool m₀) :
    ∃ m' t' sz ok, segLoop m t n gs = some (m', t', sz, ok) ∧
      ∃ f', Sheet m₀ m' t' sz f' ∧ (ok = true → f' = image f gs ∧ n ≤ sz ∧
        ∀ g, some g ∈ gs → g.vaddr + g.memsz ≤ sz) := by
  induction gs generalizing m t n f with
  | nil => exact ⟨m, t, n, true, rfl, f, h, fun _ => ⟨rfl, le_rfl, by simp⟩⟩
  | cons o gs ih =>
    have hbad : ∃ f', Sheet m₀ m t n f' ∧ (false = true → f' = image f (o :: gs) ∧ n ≤ n ∧
        ∀ g, some g ∈ o :: gs → g.vaddr + g.memsz ≤ n) := ⟨f, h, by simp⟩
    cases o with
    | none => exact ⟨m, t, n, false, rfl, hbad⟩
    | some g =>
      rw [segLoop]
      split
      · exact ⟨m, t, n, false, rfl, hbad⟩
      · next hgood =>
        simp only [not_or, ne_eq, not_not] at hgood
        obtain ⟨hfile, -, halign⟩ := hgood
        obtain ⟨m₁, t₁, r, halloc, hgrown, hfailed⟩ :=
          h.extend hpool ⟨true, g.w, g.x, true⟩ rfl (g.vaddr + g.memsz)
        simp only [halloc, Option.bind_some]
        by_cases hr : r = 0
        · rw [if_pos hr]
          exact ⟨m₁, t₁, n, false, rfl, f, hfailed hr, by simp⟩
        · obtain ⟨hle, hsz, hsheet⟩ := hgrown hr
          -- there is no memory for a segment whose size does not fit into an `uint`
          have hmod : g.filesz % 4294967296 = g.filesz := by
            have hle := le_of_roundUp (hsheet.le hpool)
            rw [PHYSTOP, PGSIZE] at hle
            omega
          have hpages : g.vaddr / PGSIZE + roundUp g.filesz ≤ roundUp r := by
            rw [PGSIZE] at halign
            rw [roundUp, roundUp, PGSIZE]
            omega
          obtain ⟨m₂, ok, hload, f₂, hsheet₂, hf₂⟩ :=
            loadseg_spec g.data hsheet hpool rfl hpages
          simp only [if_neg hr, hmod, hload, Option.bind_some]
          cases ok with
          | false => exact ⟨m₂, t₁, r, false, rfl, f₂, hsheet₂, by simp⟩
          | true =>
            obtain ⟨m', t', sz, ok, hloop, f', hsheet', hf'⟩ := ih hsheet₂
            refine ⟨m', t', sz, ok, hloop, f', hsheet', fun hok => ?_⟩
            obtain ⟨himage, hle', hall⟩ := hf' hok
            refine ⟨?_, by omega, fun g' hg' => ?_⟩
            · rw [himage, hf₂ rfl, image, Nat.div_mul_cancel (Nat.dvd_of_mod_eq_zero halign)]
            · obtain heq | hmem := List.mem_cons.mp hg'
              · cases heq
                omega
              · exact hall g' hmem

/-! ### The stack -/

theorem uvmclear_spec (h : Mine m s) (hk : k < TRAPFRAME) (hlookup : lookup s.table k = some pte) :
    ∃ t', uvmclear s.table k = some t' ∧ Turned m s m { s with table := t' } ∧
      Space.bytes { s with table := t' } m = s.bytes m ∧
      ∀ j < KEYS, j ≠ k → lookup t' j = lookup s.table j := by
  have hkeys : TRAPFRAME < KEYS := by decide
  let hide : Pte → Pte := fun pte => { pte with perm := { pte.perm with u := false } }
  have hnew : ∀ j < KEYS, lookup (modify hide 3 s.table k) j =
      if j = k then (lookup s.table j).map hide else lookup s.table j := by
    intro j hj
    rw [lookup, get_modify, mod_keys hj, mod_keys (by omega), lookup]
  -- the pages stay where they are
  have hpage : ∀ j < KEYS, (lookup (modify hide 3 s.table k) j).map Pte.page =
      (lookup s.table j).map Pte.page := by
    intro j hj
    rw [hnew j hj]
    split
    · rw [Option.map_map]
      rfl
    · rfl
  refine ⟨modify hide 3 s.table k, ?_, ⟨rfl, rfl, fun pg => ?_, fun _ _ => rfl,
    ⟨h.keyed.bound, fun j hj hge hframe htramp => ?_, fun j hj hge pte' hpte' => ?_⟩, h.size⟩, ?_,
    fun j hj hne => ?_⟩
  · rw [uvmclear, hlookup, Option.map_some]
  · rw [held, held, labels_modify, leafUses_congr_page fun j hj => hpage j (hj.trans hkeys)]
  · have hnone := h.keyed.rest j hj hge hframe htramp
    dsimp only
    rw [hnew j hj, hnone, Option.map_none, ite_self]
  · dsimp only at hpte'
    rw [hnew j hj, if_neg (by omega)] at hpte'
    exact h.keyed.hidden j hj hge pte' hpte'
  · rw [Space.bytes, Space.bytes]
    congr 1
    funext j
    rw [Space.contents, Space.contents]
    dsimp only
    split
    · next hj =>
      have hbound := h.keyed.bound
      have hmap := hpage j (by omega)
      cases hold : lookup s.table j with
      | none =>
        rw [hold, Option.map_none, Option.map_eq_none_iff] at hmap
        rw [hmap]
      | some pte =>
        rw [hold, Option.map_some] at hmap
        obtain ⟨pte', hpte', hsame⟩ := Option.map_eq_some_iff.mp hmap
        rw [hpte', Option.elim_some, Option.elim_some, hsame]
    · rfl
  · rw [hnew j hj, if_neg hne]

/-- The last page of a process is its stack. -/
structure Stack (s : Space) (k : ℕ) (pte : Pte) : Prop where
  size : s.sz = (k + 1) * PGSIZE
  pos : 0 < k
  lookup : lookup s.table k = some pte
  user : pte.perm.u = true
  writable : pte.perm.w = true

theorem copyoutNew_nil (fuel dst : ℕ) : copyoutNew fuel m t dst [] = some (m, true) := by
  cases fuel <;> rfl

theorem copyoutNew_stack {dst : ℕ} (src : List UInt8) (h : Mine m s) (hstack : Stack s k pte)
    (hlo : k * PGSIZE ≤ dst) (hhi : dst + src.length ≤ s.sz) :
    ∃ m', copyoutNew src.length m s.table dst src = some (m', true) ∧ Turned m s m' s ∧
      s.bytes m' = patch (s.bytes m) dst src := by
  cases src with
  | nil => exact ⟨m, copyoutNew_nil .., h.turned_refl, patch_nil.symm⟩
  | cons b src =>
    have hsz := hstack.size
    rw [List.length_cons] at hhi ⊢
    have hdiv : dst / PGSIZE = k := by
      rw [PGSIZE] at hlo hsz ⊢
      omega
    have hmod : dst % PGSIZE + (src.length + 1) ≤ PGSIZE ∧ k * PGSIZE + dst % PGSIZE = dst := by
      rw [PGSIZE] at hlo hsz ⊢
      omega
    have hk : k < roundUp s.sz := by rw [hsz, roundUp_mul]; omega
    have hbound := h.keyed.bound
    have hmax : TRAPFRAME < MAXVA := by decide
    have hwalk : walkaddr s.table k = some pte.page := by
      rw [walkaddr, if_pos (by omega), hstack.lookup, Option.bind_some, if_pos hstack.user]
    have hwrite := h.write_bytes hk hstack.lookup (dst % PGSIZE) (b :: src) hmod.1
    rw [hmod.2] at hwrite
    refine ⟨_, ?_, hwrite⟩
    have hmin : min (PGSIZE - dst % PGSIZE) (b :: src).length = (b :: src).length :=
      Nat.min_eq_right (by rw [List.length_cons]; omega)
    rw [copyoutNew, if_neg (List.cons_ne_nil b src), hdiv, if_neg (by omega), hwalk, hstack.lookup]
    simp only [hmin, hstack.writable, List.take_length, List.drop_length, copyoutNew_nil,
      Bool.true_eq_false, if_false]

theorem push_le {sp len base : ℕ} (hbase : 0 < base)
    (h : ¬ sp - len - (sp - len) % 16 < base) :
    base ≤ sp - len - (sp - len) % 16 ∧ sp - len - (sp - len) % 16 + len ≤ sp := by
  omega

/-- **The strings are pushed.** They are below each other, and nothing else is written. -/
theorem pushStrings_spec {sp : ℕ} {argv : List ℕ} {str : ℕ → List UInt8} (argc : ℕ) (h : Mine m s)
    (hstack : Stack s k pte) (hlo : k * PGSIZE ≤ sp) (hhi : sp ≤ s.sz)
    (hargv : ∀ pg ∈ argv, held m s.table pg = 0 ∧ cstr (m.mem pg) = str pg) :
    ∃ m' o, pushStrings s.table (k * PGSIZE) m sp argc argv = some (m', o) ∧ Turned m s m' s ∧
      ∀ sp' ustack, o = some (sp', ustack) → k * PGSIZE ≤ sp' ∧ sp' ≤ sp ∧
        (∀ a, a < sp' ∨ sp ≤ a → s.bytes m' a = s.bytes m a) ∧
        List.Forall₂ (fun p pg => sp' ≤ p ∧ p ≤ sp ∧
          slice (s.bytes m') p ((str pg).length + 1) = str pg ++ [0]) ustack argv := by
  induction argv generalizing m sp argc with
  | nil =>
    refine ⟨m, some (sp, []), rfl, h.turned_refl, fun sp' ustack hsome => ?_⟩
    cases hsome
    exact ⟨hlo, le_rfl, fun _ _ => rfl, .nil⟩
  | cons pg argv ih =>
    have hpos : 0 < k * PGSIZE := Nat.mul_pos hstack.pos (by decide)
    rw [pushStrings]
    split
    · exact ⟨m, none, rfl, h.turned_refl, by simp⟩
    · rw [(hargv pg List.mem_cons_self).2]
      obtain ⟨sp₁, hsp₁⟩ : ∃ sp₁, sp₁ = sp - (str pg ++ [0]).length -
        (sp - (str pg ++ [0]).length) % 16 := ⟨_, rfl⟩
      simp only [← hsp₁]
      split
      · exact ⟨m, none, rfl, h.turned_refl, by simp⟩
      · next hroom =>
        obtain ⟨hlo₁, hhi₁⟩ := push_le hpos (hsp₁ ▸ hroom)
        rw [← hsp₁] at hlo₁ hhi₁
        obtain ⟨m₁, hcopy, hturned₁, hbytes₁⟩ :=
          copyoutNew_stack (str pg ++ [0]) h hstack hlo₁ (hhi₁.trans hhi)
        -- the pages of the kernel are not those of the new program
        obtain ⟨m', o, hrest, hturned', ho⟩ := ih (m := m₁) (argc + 1)
          (hturned₁.mine h) hlo₁ (by omega) fun pg' hpg' => by
            obtain ⟨hheld, hstr⟩ := hargv pg' (List.mem_cons_of_mem _ hpg')
            rw [hturned₁.held, hturned₁.mem pg' hheld]
            exact ⟨hheld, hstr⟩
        simp only [hcopy, hrest, Option.bind_some, Option.map_some, if_true]
        refine ⟨m', _, rfl, hturned₁.trans hturned', fun sp' ustack hsome => ?_⟩
        obtain ⟨⟨sp'', ustack'⟩, rfl, heq⟩ := Option.map_eq_some_iff.mp hsome
        cases heq
        obtain ⟨hlo', hhi', hframe, hstrs⟩ := ho sp'' ustack' rfl
        refine ⟨hlo', by omega, fun a ha => ?_, .cons ⟨hhi', by omega, ?_⟩
          (hstrs.imp fun p pg' hp => ⟨hp.1, by omega, hp.2.2⟩)⟩
        · rw [hframe a (by omega), hbytes₁]
          obtain ha | ha := ha
          · exact patch_of_lt (by omega)
          · exact patch_of_le (by omega)
        · have hlen : (str pg).length + 1 = (str pg ++ [0]).length := by simp
          rw [slice_congr fun i _ => hframe (sp₁ + i) (by omega), hbytes₁, hlen, slice_patch]

theorem argv_of_slice {a : ℕ} (ptrs : List ℕ) {strs : List (List UInt8)}
    (hslice : slice f a ((ptrs ++ [0]).flatMap (leBytes 8)).length =
      (ptrs ++ [0]).flatMap (leBytes 8))
    (hptrs : List.Forall₂ (fun p str => p ≠ 0 ∧ p < 256 ^ 8 ∧ 0 ∉ str ∧
      slice f p (str.length + 1) = str ++ [0]) ptrs strs) : Argv f a strs := by
  induction hptrs generalizing a with
  | nil =>
    simp only [List.nil_append, List.flatMap_cons, List.flatMap_nil, List.append_nil,
      length_leBytes] at hslice
    rw [Argv, word, hslice, ofBytes_leBytes (by decide)]
  | @cons p str ptrs strs hp _ ih =>
    obtain ⟨hne, hlt, hnul, hstr⟩ := hp
    rw [List.cons_append, List.flatMap_cons, List.length_append, length_leBytes, slice_add]
      at hslice
    obtain ⟨hhead, htail⟩ := List.append_inj hslice (by simp)
    have hword : word f a = p := by rw [word, hhead, ofBytes_leBytes hlt]
    rw [Argv, hword]
    exact ⟨hne, hnul, hstr, ih htail⟩

/-- **The arguments are pushed.** -/
theorem pushArgs_spec (argv : List ℕ) (h : Mine m s) (hstack : Stack s k pte)
    (hargv : ∀ pg ∈ argv, held m s.table pg = 0) :
    ∃ m' o, pushArgs m s.table s.sz argv = some (m', o) ∧ Turned m s m' s ∧
      ∀ sp, o = some sp → (∀ a < k * PGSIZE, s.bytes m' a = s.bytes m a) ∧
        k * PGSIZE ≤ sp ∧ sp < s.sz ∧ sp % 16 = 0 ∧
        Argv (s.bytes m') sp (argv.map fun pg => cstr (m.mem pg)) := by
  have hsz := hstack.size
  have hbase : s.sz - PGSIZE = k * PGSIZE := by rw [hsz, Nat.succ_mul]; omega
  have hpos : 0 < k * PGSIZE := Nat.mul_pos hstack.pos (by decide)
  obtain ⟨m₁, o, hstrings, hturned₁, ho⟩ := pushStrings_spec 0 h hstack
    (show k * PGSIZE ≤ s.sz by omega) le_rfl fun pg hpg => ⟨hargv pg hpg, rfl⟩
  rw [pushArgs, hbase, hstrings, Option.bind_some]
  cases o with
  | none => exact ⟨m₁, none, rfl, hturned₁, by simp⟩
  | some x =>
    obtain ⟨sp₁, ustack⟩ := x
    obtain ⟨hlo₁, hhi₁, hframe₁, hstrs⟩ := ho sp₁ ustack rfl
    dsimp only
    obtain ⟨bytes, hbytes⟩ : ∃ bytes, bytes = (ustack ++ [0]).flatMap (leBytes 8) := ⟨_, rfl⟩
    obtain ⟨sp, hsp⟩ : ∃ sp, sp = sp₁ - bytes.length - (sp₁ - bytes.length) % 16 := ⟨_, rfl⟩
    rw [← hbytes, ← hsp]
    split
    · exact ⟨m₁, none, rfl, hturned₁, by simp⟩
    · next hroom =>
      obtain ⟨hlo, hhi⟩ := push_le hpos (hsp ▸ hroom)
      rw [← hsp] at hlo hhi
      obtain ⟨m', hcopy, hturned', hbytes'⟩ :=
        copyoutNew_stack bytes (hturned₁.mine h) hstack hlo (hhi.trans hhi₁)
      rw [hcopy, Option.map_some, if_pos rfl]
      refine ⟨m', some sp, rfl, hturned₁.trans hturned', fun sp' hsome => ?_⟩
      cases hsome
      have hlen : 8 ≤ bytes.length := by simp [hbytes]
      refine ⟨fun a ha => ?_, hlo, by omega, by omega, ?_⟩
      · rw [hbytes', patch_of_lt (by omega), hframe₁ a (by omega)]
      · refine argv_of_slice ustack ?_ ?_
        · rw [hbytes', ← hbytes, slice_patch]
        · rw [List.forall₂_map_right_iff]
          refine hstrs.imp fun p pg hp => ⟨by omega, ?_, not_mem_takeWhile _, ?_⟩
          · exact (hp.2.1.trans h.size).trans_lt (by decide)
          · rw [hbytes', slice_patch_of_disjoint (by omega)]
            exact hp.2.2

/-! ### `kexec` -/

theorem Sheet.whole (h : Sheet m₀ m t sz f) : Sheet m₀ m t (roundUp sz * PGSIZE) f := by
  refine ⟨?_, ?_, ?_⟩
  · rw [roundUp_mul]
    exact h.draft
  · rw [roundUp_mul]
    exact h.dense
  · rw [← h.bytes, Space.bytes, Space.bytes]
    congr 1
    funext k
    rw [Space.contents, Space.contents]
    dsimp only
    rw [roundUp_mul]

theorem Sheet.empty (h : Draft m₀ m t 0) : Sheet m₀ m t 0 fun _ => 0 := by
  refine ⟨h, fun k hk => absurd hk (Nat.not_lt_zero k), ?_⟩
  funext a
  rw [Space.bytes, flat, Space.contents, if_neg (by simp [roundUp_zero])]
  rfl

namespace Mine

theorem of_restored (h : Mine m s) (hrestored : Restored m m') :
    Turned m s m' s ∧ s.bytes m' = s.bytes m := by
  refine ⟨⟨hrestored.kend, rfl, fun pg => ?_, fun pg hpg => ?_, h.keyed, h.size⟩, ?_⟩
  · rw [held, held, hrestored.count]
  · refine hrestored.mem pg fun hfree => ?_
    have hpos : 0 < m.free.count pg := List.count_pos_iff.mpr hfree
    rw [held] at hpg
    omega
  · exact h.keyed.bytes_congr fun pg hpos => hrestored.mem pg (h.notMem_free hpos)

/-- The old memory is freed, and the draft takes its place. -/
theorem replace (h : Mine m s) (hdraft : Draft m m' t (roundUp sz)) :
    ∃ m'', procFreepagetable m' s.table s.sz = some m'' ∧
      Turned m s m'' { s with table := t, sz := sz } ∧
      Space.bytes { s with table := t, sz := sz } m'' =
        Space.bytes { s with table := t, sz := sz } m' := by
  have hown : ∀ {pg}, labels s.table pg + leafUses s.table pg ≠ 0 → m.owns pg ∧ pg ∉ m.free := by
    intro pg hpg
    refine ⟨h.owns pg (by rw [held]; omega), fun hfree => ?_⟩
    have hpos : 0 < m.free.count pg := List.count_pos_iff.mpr hfree
    have honce := h.once pg
    rw [held] at honce
    omega
  obtain ⟨m'', hfree, hkend, hcount, hmem⟩ :=
    procFreepagetable_spec (m := m') h.keyed fun pg hpg => by
      rw [Phys.owns, hdraft.kend]
      exact (hown hpg).1
  refine ⟨m'', hfree, ⟨hkend.trans hdraft.kend, rfl, fun pg => ?_, fun pg hpg => ?_, hdraft.keyed,
    le_of_roundUp hdraft.keyed.bound⟩, ?_⟩
  · have hheld := hdraft.held pg
    rw [held] at hheld
    dsimp only
    rw [held, held, hcount, held]
    omega
  · rw [held] at hpg
    rw [hmem pg (by omega), hdraft.mem pg]
    rw [← List.count_eq_zero]
    omega
  · refine Keyed.bytes_congr hdraft.keyed fun pg hpos => hmem pg ?_
    -- a page of the new table was free when the old one was in use
    dsimp only at hpos
    by_contra hne
    exact (hown hne).2 (hdraft.mem_free (by rw [held]; omega))

end Mine

theorem Sheet.stack {b : ℕ} {argv : List ℕ} (h : Sheet m₀ m t ((b + 2) * PGSIZE) f)
    (trapframe : ℕ) (hpool : Pool m₀) (hargv : ∀ pg ∈ argv, pg ∉ m₀.free)
    (hpages : ∀ k, b ≤ k → k < b + 2 → ∃ pg, lookup t k = some ⟨pg, dataPerm⟩) :
    ∃ t' m' o, uvmclear t b = some t' ∧ pushArgs m t' ((b + 2) * PGSIZE) argv = some (m', o) ∧
      Draft m₀ m' t' (roundUp ((b + 2) * PGSIZE)) ∧
      ∀ sp, o = some sp →
        (∀ a < (b + 1) * PGSIZE, Space.bytes ⟨trapframe, t', (b + 2) * PGSIZE⟩ m' a = f a) ∧
        (b + 1) * PGSIZE ≤ sp ∧ sp < (b + 2) * PGSIZE ∧ sp % 16 = 0 ∧
        Argv (Space.bytes ⟨trapframe, t', (b + 2) * PGSIZE⟩ m') sp
          (argv.map fun pg => cstr (m₀.mem pg)) := by
  have hkeys : TRAPFRAME < KEYS := by decide
  have hbound := h.draft.keyed.bound
  rw [roundUp_mul] at hbound
  obtain ⟨guard, hguard⟩ := hpages b le_rfl (by omega)
  obtain ⟨page, hpage⟩ := hpages (b + 1) (by omega) (by omega)
  have hmine : Mine m ⟨trapframe, t, (b + 2) * PGSIZE⟩ := h.draft.mine trapframe hpool
  obtain ⟨t', hclear, hturned, hbytes, hother⟩ := uvmclear_spec hmine (by omega) hguard
  have hstack : Stack ⟨trapframe, t', (b + 2) * PGSIZE⟩ (b + 1) ⟨page, dataPerm⟩ :=
    ⟨rfl, by omega, (hother (b + 1) (by omega) (by omega)).trans hpage, rfl, rfl⟩
  have hdraft : Draft m₀ m t' (roundUp ((b + 2) * PGSIZE)) := h.draft.turned hturned
  obtain ⟨m', o, hpush, hturned', ho⟩ :=
    pushArgs_spec argv (hturned.mine hmine) hstack fun pg hpg => by
      rw [hdraft.held, List.count_eq_zero]
      exact hargv pg hpg
  refine ⟨t', m', o, hclear, hpush, hdraft.turned hturned', fun sp hsp => ?_⟩
  obtain ⟨hframe, hlo, hhi, halign, hstrs⟩ := ho sp hsp
  refine ⟨fun a ha => ?_, hlo, hhi, halign, ?_⟩
  · rw [hframe a ha, hbytes]
    exact congrFun h.bytes a
  · have hsame : (argv.map fun pg => cstr (m₀.mem pg)) = argv.map fun pg => cstr (m.mem pg) :=
      List.map_congr_left fun pg hpg => by rw [hdraft.mem pg (hargv pg hpg)]
    rw [hsame]
    exact hstrs

section

variable {trampoline : ℕ} {file : Option (List (Option Segment))} {argv : List ℕ}
  {strs : List (List UInt8)}

theorem Execed.of_restored (h : Mine m s) (hrestored : Restored m m') :
    Execed m s file strs m' s none := by
  obtain ⟨hturned, hbytes⟩ := h.of_restored hrestored
  exact ⟨hturned, fun _ => ⟨rfl, hbytes⟩, by simp⟩

theorem Execed.bad (h : Mine m s) (hdraft : Draft m m' t (roundUp n)) :
    ∃ m'', execBad m' s t n = some (m'', s, none) ∧ Execed m s file strs m'' s none := by
  obtain ⟨m'', hfree, hrestored⟩ := hdraft.discard h.pool
  exact ⟨m'', by rw [execBad, hfree, Option.map_some], .of_restored h hrestored⟩

/-- **`kexec`** starts the program, or changes nothing. -/
theorem Mine.kexec (h : Mine m s) (trampoline : ℕ) (file : Option (List (Option Segment)))
    (hargv : ∀ pg ∈ argv, pg ∉ m.free) :
    ∃ m' s' o, Vm.kexec trampoline m s file argv = some (m', s', o) ∧
      Execed m s file (argv.map fun pg => cstr (m.mem pg)) m' s' o := by
  have hpool := h.pool
  cases file with
  | none => exact ⟨m, s, none, rfl, .of_restored h (.refl m)⟩
  | some gs =>
    obtain ⟨m₁, o, htable, hsome, hnone⟩ :=
      procPagetable_spec trampoline s.trapframe hpool
    simp only [Vm.kexec, htable, Option.bind_some]
    cases o with
    | none => exact ⟨m₁, s, none, rfl, .of_restored h (hnone rfl)⟩
    | some t =>
      obtain ⟨m₂, t₂, sz, ok, hloop, f, hsheet, hf⟩ :=
        segLoop_spec gs (Sheet.empty (hsome t rfl)) hpool
      simp only [hloop, Option.bind_some]
      cases ok with
      | false =>
        obtain ⟨m', hbad, hexeced⟩ := Execed.bad h hsheet.draft
        exact ⟨m', s, none, hbad, hexeced⟩
      | true =>
        obtain ⟨himage, -, hsegments⟩ := hf rfl
        obtain ⟨b, hb⟩ : ∃ b, b = roundUp sz := ⟨_, rfl⟩
        have hsz : sz ≤ b * PGSIZE := le_of_roundUp hb.ge
        have hsheet := hsheet.whole
        simp only [← hb] at hsheet ⊢
        obtain ⟨m₃, t₃, r, halloc, hresult⟩ := hsheet.uvmalloc hpool dataPerm
          (show b * PGSIZE ≤ (b + 2) * PGSIZE from Nat.mul_le_mul_right _ (by omega)) rfl
        simp only [halloc, Option.bind_some, Bool.true_eq_false, if_false]
        obtain ⟨rfl, hsheet₃, hpages⟩ | ⟨rfl, hsheet₃⟩ := hresult
        · rw [roundUp_mul, roundUp_mul] at hpages
          obtain ⟨t', m₄, o, hclear, hpush, hdraft, ho⟩ :=
            hsheet₃.stack s.trapframe hpool hargv hpages
          have hdiv : (b + 2) * PGSIZE / PGSIZE - 2 = b := by
            rw [Nat.mul_div_cancel _ (by decide)]
            omega
          have hpos : (b + 2) * PGSIZE ≠ 0 := (Nat.mul_pos (by omega) (by decide)).ne'
          simp only [if_neg hpos, hdiv, hclear, hpush, Option.bind_some]
          cases o with
          | none =>
            obtain ⟨m', hbad, hexeced⟩ := Execed.bad h hdraft
            exact ⟨m', s, none, hbad, hexeced⟩
          | some sp =>
            obtain ⟨hbytes, hlo, hhi, halign, hstrs⟩ := ho sp rfl
            obtain ⟨m', hfree, hturned, hbytes'⟩ := h.replace hdraft
            refine ⟨m', { s with table := t', sz := (b + 2) * PGSIZE }, some (argv.length, sp), ?_,
              hturned, by simp, fun x hx => ?_⟩
            · dsimp only
              rw [hfree, Option.map_some]
            cases hx
            refine ⟨gs, rfl, ?_⟩
            rw [hbytes']
            refine ⟨fun g hg => ?_, fun a ha => ?_, by simp, hstrs, ?_⟩
            · have hle := hsegments g hg
              dsimp only
              rw [Nat.add_mul]
              omega
            · rw [hbytes a, himage]
              dsimp only at ha
              rw [Nat.add_mul] at ha ⊢
              omega
            · dsimp only
              rw [Nat.add_mul] at hlo hhi ⊢
              omega
        · obtain ⟨m', hbad, hexeced⟩ := Execed.bad h hsheet₃.draft
          exact ⟨m', s, none, hbad, hexeced⟩

/-! ### `sys_exec` -/

/-- The kernel has taken the pages in `pages` for itself, and the process sees nothing of it. -/
structure Lent (m : Phys) (s : Space) (m' : Phys) (s' : Space) (pages : List ℕ) : Prop where
  kend : m'.kend = m.kend
  trapframe : s'.trapframe = s.trapframe
  held : ∀ pg, held m' s'.table pg + pages.count pg = held m s.table pg
  mem : ∀ pg, Vm.held m s.table pg = 0 → m'.mem pg = m.mem pg
  keyed : Keyed s'.table (roundUp s'.sz)
  sz : s'.sz = s.sz
  bytes : s'.bytes m' = s.bytes m

namespace Lent

variable {m₁ m₂ : Phys} {s₁ s₂ s' : Space} {l l' : List ℕ}

theorem of_turned (h : Turned m s m' s') (hsz : s'.sz = s.sz) (hbytes : s'.bytes m' = s.bytes m) :
    Lent m s m' s' [] :=
  ⟨h.kend, h.trapframe, fun pg => by rw [List.count_nil, Nat.add_zero, h.held], h.mem, h.keyed, hsz,
    hbytes⟩

theorem mine (hlent : Lent m s m' s' l) (h : Mine m s) : Mine m' s' where
  once pg := by
    have honce := h.once pg
    have hheld := hlent.held pg
    omega
  owns pg hpg := by
    have hheld := hlent.held pg
    rw [Phys.owns, hlent.kend]
    exact h.owns pg (by omega)
  keyed := hlent.keyed
  size := hlent.sz.trans_le h.size

/-- A page that the kernel has is not one of the process. -/
theorem held_eq_zero (hlent : Lent m s m' s' l) (h : Mine m s) (hpg : pg ∈ l) :
    Vm.held m' s'.table pg = 0 := by
  have hcount : 0 < l.count pg := List.count_pos_iff.mpr hpg
  have honce := h.once pg
  have hheld := hlent.held pg
  omega

theorem trans (h₁ : Lent m s m₁ s₁ l) (h₂ : Lent m₁ s₁ m₂ s₂ l') : Lent m s m₂ s₂ (l ++ l') where
  kend := h₂.kend.trans h₁.kend
  trapframe := h₂.trapframe.trans h₁.trapframe
  held pg := by
    have hheld₁ := h₁.held pg
    have hheld₂ := h₂.held pg
    rw [List.count_append]
    omega
  mem pg hpg := by
    have hheld := h₁.held pg
    rw [h₂.mem pg (by omega), h₁.mem pg hpg]
  keyed := h₂.keyed
  sz := h₂.sz.trans h₁.sz
  bytes := h₂.bytes.trans h₁.bytes

theorem bytes_write (h : Mine m s) (hpg : Vm.held m s.table pg = 0) (c : Content) :
    s.bytes (m.write pg c) = s.bytes m := by
  refine h.keyed.bytes_congr fun p hpos => m.write_mem_of_ne ?_ c
  rintro rfl
  rw [Vm.held] at hpg
  omega

theorem kalloc (h : Mine m s) (halloc : Vm.kalloc m = some (pg, m₁)) : Lent m s m₁ s [pg] := by
  obtain ⟨hlist, hkend, hmem⟩ := kalloc_eq_some halloc
  have hfree : pg ∈ m.free := by rw [hlist]; exact List.mem_cons_self
  refine ⟨hkend, rfl, fun p => ?_, fun p hp => hmem p ?_, h.keyed, rfl,
    h.keyed.bytes_congr fun p hpos => hmem p ?_⟩
  · rw [Vm.held, Vm.held, hlist, List.count_cons, List.count_cons, List.count_nil]
    omega
  · rintro rfl
    have hpos : 0 < m.free.count p := List.count_pos_iff.mpr hfree
    rw [Vm.held] at hp
    omega
  · rintro rfl
    exact h.notMem_free hpos hfree

theorem write (hlent : Lent m s m' s' l) (h : Mine m s) (hpg : pg ∈ l) (c : Content) :
    Lent m s (m'.write pg c) s' l := by
  have hzero := hlent.held_eq_zero h hpg
  have hfree : ∀ p, Vm.held (m'.write pg c) s'.table p = Vm.held m' s'.table p := fun _ => rfl
  refine ⟨hlent.kend, hlent.trapframe, fun p => by rw [hfree, hlent.held], fun p hp => ?_,
    hlent.keyed, hlent.sz, ?_⟩
  · have hheld := hlent.held p
    have hcount : 0 < l.count pg := List.count_pos_iff.mpr hpg
    rw [m'.write_mem_of_ne _ c, hlent.mem p hp]
    rintro rfl
    omega
  · rw [bytes_write (hlent.mine h) hzero, hlent.bytes]

theorem giveBack (hlent : Lent m s m₁ s₁ l) (h : Mine m s) (hturned : Turned m₁ s₁ m₂ s₂) :
    ∃ m', l.foldlM kfree m₂ = some m' ∧ Turned m s m' s₂ ∧ s₂.bytes m' = s₂.bytes m₂ := by
  have hsum : ∀ pg, Vm.held m₂ s₂.table pg + l.count pg = Vm.held m s.table pg := fun pg => by
    rw [hturned.held, hlent.held]
  obtain ⟨m', hfold, hkend, hcount, hmem⟩ := foldlM_kfree (m := m₂) l fun pg hpg => by
    have hpos : 0 < l.count pg := List.count_pos_iff.mpr hpg
    have hheld := hsum pg
    rw [Phys.owns, hturned.kend, hlent.kend]
    exact h.owns pg (by omega)
  have hout : ∀ pg, l.count pg = 0 → m'.mem pg = m₂.mem pg := fun pg hpg =>
    hmem pg (List.count_eq_zero.mp hpg)
  refine ⟨m', hfold, ⟨hkend.trans (hturned.kend.trans hlent.kend),
    hturned.trapframe.trans hlent.trapframe, fun pg => ?_, fun pg hpg => ?_, hturned.keyed,
    hturned.size⟩, ?_⟩
  · have hheld := hsum pg
    have hfree := hcount pg
    rw [Vm.held] at hheld ⊢
    omega
  · have hheld := hlent.held pg
    rw [hout pg (by omega), hturned.mem pg (by omega), hlent.mem pg hpg]
  · refine hturned.keyed.bytes_congr fun pg hpos => hout pg ?_
    -- a page of the process is not one of the kernel's
    have hheld := hsum pg
    have honce := h.once pg
    rw [Vm.held] at hheld
    omega

end Lent

/-- A string that has been copied to the start of a page. -/
theorem cstr_splice {str : List UInt8} (c : Content) (hlen : str.length < PGSIZE) (hnul : 0 ∉ str) :
    cstr (splice c 0 (str ++ [0])) = str := by
  have hlen' : 0 + (str ++ [0]).length ≤ PGSIZE := by
    rw [List.length_append, List.length_singleton]
    omega
  let pages : ℕ → Content := Function.update (fun _ => c) 0 (splice c 0 (str ++ [0]))
  have hread := slice_flat (c := pages) 0 (show 0 + PGSIZE ≤ PGSIZE by omega)
  have hpatch : flat pages = patch (flat fun _ => c) 0 (str ++ [0]) := by
    have hupdate := flat_update_splice (c := fun _ => c) (k := 0) hlen'
    rwa [Nat.zero_mul, Nat.zero_add] at hupdate
  rw [Nat.zero_mul, Nat.zero_add, hpatch] at hread
  have hpage : pageSlice (splice c 0 (str ++ [0])) 0 PGSIZE =
      slice (patch (flat fun _ => c) 0 (str ++ [0])) 0 PGSIZE := by
    rw [hread, pageSlice]
    simp only [pages, Function.update_self]
  rw [cstr, hpage]
  exact takeWhile_of_isPrefix (isPrefix_slice_patch (by omega)) hnul

theorem Mine.fetchaddr (h : Mine m s) (addr : ℕ) :
    ∃ m' s' o, Vm.fetchaddr m s addr = some (m', s', o) ∧ Lent m s m' s' [] ∧
      ∀ w, o = some w → w = word (s.bytes m) addr := by
  rw [Vm.fetchaddr]
  split
  · exact ⟨m, s, none, rfl, .of_turned h.turned_refl rfl rfl, by simp⟩
  · obtain ⟨m', s', o, hcopy, hturned, hsz, hbytes, hread⟩ := h.copyin addr 8
    refine ⟨m', s', _, by rw [hcopy, Option.map_some], .of_turned hturned hsz hbytes,
      fun w hw => ?_⟩
    obtain ⟨l, rfl, rfl⟩ := Option.map_eq_some_iff.mp hw
    rw [word, hread l rfl]

/-- **The arguments are fetched** into pages of the kernel. -/
theorem Mine.fetchArgs (h : Mine m s) (n uargv : ℕ) :
    ∃ m' s' l ok, Vm.fetchArgs n m s uargv = some (m', s', l, ok) ∧ Lent m s m' s' l ∧
      (ok = true → Argv (s.bytes m) uargv (l.map fun pg => cstr (m'.mem pg))) := by
  induction n generalizing m s uargv with
  | zero => exact ⟨m, s, [], false, rfl, .of_turned h.turned_refl rfl rfl, by simp⟩
  | succ n ih =>
    obtain ⟨m₁, s₁, o, hfetch, hlent₁, hword⟩ := h.fetchaddr uargv
    have hmine₁ := hlent₁.mine h
    simp only [Vm.fetchArgs, hfetch, Option.bind_some]
    cases o with
    | none => exact ⟨m₁, s₁, [], false, rfl, hlent₁, by simp⟩
    | some uarg =>
      have hword := hword uarg rfl
      dsimp only
      split
      · next hzero => exact ⟨m₁, s₁, [], true, rfl, hlent₁, fun _ => by
          rw [List.map_nil, Argv, ← hword, hzero]⟩
      · next hne =>
        cases halloc : Vm.kalloc m₁ with
        | none => exact ⟨m₁, s₁, [], false, rfl, hlent₁, by simp⟩
        | some x =>
          obtain ⟨pg, m₂⟩ := x
          have hlent₂ := hlent₁.trans (.kalloc hmine₁ halloc)
          rw [List.nil_append] at hlent₂
          dsimp only
          cases hstr : copyinstr m₂ s₁.table uarg PGSIZE with
          | none => exact ⟨m₂, s₁, [pg], false, rfl, hlent₂, by simp⟩
          | some str =>
            obtain ⟨hlen, hnul, hslice⟩ := copyinstrLoop_spec (hlent₂.mine h) hstr
            have hlent₃ := hlent₂.write h List.mem_cons_self (splice (m₂.mem pg) 0 (str ++ [0]))
            obtain ⟨m', s', l, ok, hrest, hlent', hargv⟩ := ih (hlent₃.mine h) (uargv + 8)
            dsimp only
            rw [hrest, Option.map_some]
            refine ⟨m', s', pg :: l, ok, rfl, hlent₃.trans hlent', fun hok => ?_⟩
            -- the page of the first string is not touched again
            have hcstr : cstr (m'.mem pg) = str := by
              rw [hlent'.mem pg (hlent₃.held_eq_zero h List.mem_cons_self), Phys.write_mem_self,
                cstr_splice _ hlen hnul]
            rw [List.map_cons, hcstr, Argv, ← hword]
            refine ⟨hne, hnul, ?_, ?_⟩
            · rw [← hlent₂.bytes, hslice]
            · rw [← hlent₃.bytes]
              exact hargv hok

/-- **`sys_exec`** starts the program with the arguments of the old one, or changes nothing. -/
theorem Mine.sysExec (h : Mine m s) (trampoline : ℕ) (file : Option (List (Option Segment)))
    (uargv : ℕ) :
    ∃ m' s' o, Vm.sysExec trampoline m s file uargv = some (m', s', o) ∧
      ∃ strs, Execed m s file strs m' s' o ∧ (o ≠ none → Argv (s.bytes m) uargv strs) := by
  obtain ⟨m₁, s₁, l, ok, hfetch, hlent, hargv⟩ := h.fetchArgs MAXARG uargv
  simp only [Vm.sysExec, hfetch, Option.bind_some]
  cases ok with
  | false =>
    obtain ⟨m', hfold, hturned, hbytes⟩ := hlent.giveBack h (hlent.mine h).turned_refl
    refine ⟨m', s₁, none, ?_, [], ⟨hturned, fun _ => ⟨hlent.sz, hbytes.trans hlent.bytes⟩, by simp⟩,
      fun hne => absurd rfl hne⟩
    simp only [Bool.false_eq_true, if_false, Option.bind_some, hfold, Option.map_some]
  | true =>
    obtain ⟨m₂, s₂, o, hexec, hexeced⟩ := (hlent.mine h).kexec trampoline file
      (show ∀ pg ∈ l, pg ∉ m₁.free from fun pg hpg hfree => by
        have hzero := hlent.held_eq_zero h hpg
        have hpos : 0 < m₁.free.count pg := List.count_pos_iff.mpr hfree
        rw [held] at hzero
        omega)
    obtain ⟨m', hfold, hturned, hbytes⟩ := hlent.giveBack h hexeced.turned
    refine ⟨m', s₂, o, ?_, _, ⟨hturned, fun ho => ?_, fun x hx => ?_⟩, fun _ => hargv rfl⟩
    · simp only [if_true, hexec, Option.bind_some, hfold, Option.map_some]
    · obtain ⟨hsz, hsame⟩ := hexeced.failed ho
      exact ⟨hsz.trans hlent.sz, hbytes.trans (hsame.trans hlent.bytes)⟩
    · rw [hbytes]
      exact hexeced.started x hx

end

end MiniOs.Xv6.Vm
