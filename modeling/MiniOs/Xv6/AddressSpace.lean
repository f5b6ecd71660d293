import MiniOs.Xv6.PageTable

/-!
# Address spaces

The life of user memory: `allocproc`, `freeproc`, `kfork`, `growproc` and `sys_sbrk`, and page
faults, as far as they use physical pages and page tables. A function that runs out of memory leaves
nothing behind, and what it has changed is told by `Space.contents`, in which a page that has not
been allocated yet cannot be told from a page of zeros.
-/

namespace MiniOs.Xv6.Vm

open RadixTree

variable {F : ℕ → Option (Perm × Content)} {sz : ℕ}

/-- What `struct proc` says about user memory. -/
structure Space where
  trapframe : ℕ
  table : Table
  sz : ℕ

/-- `PTE_R | PTE_W | PTE_U`. -/
def dataPerm : Perm := ⟨true, true, false, true⟩

section Model

-- the physical page of the trampoline code
variable (trampoline : ℕ)

def procPagetable (m : Phys) (trapframe : ℕ) : Option (Phys × Option Table) :=
  match uvmcreate m with
  | none => some (m, none)
  | some (t, m) =>
    (mappages m t TRAMPOLINE ⟨trampoline, true, false, true, false⟩).bind fun x =>
      if x.2.2 = true then
        (mappages x.1 x.2.1 TRAPFRAME ⟨trapframe, true, true, false, false⟩).bind fun y =>
          if y.2.2 = true then some (y.1, some y.2.1)
          else
            (uvmunmap y.1 y.2.1 TRAMPOLINE 1 false).bind fun z =>
              (uvmfree z.1 z.2 0).map fun m => (m, none)
      else (uvmfree x.1 x.2.1 0).map fun m => (m, none)

def procFreepagetable (m : Phys) (t : Table) (sz : ℕ) : Option Phys :=
  (uvmunmap m t TRAMPOLINE 1 false).bind fun x =>
    (uvmunmap x.1 x.2 TRAPFRAME 1 false).bind fun y => uvmfree y.1 y.2 sz

/-- `allocproc`, once it has found a slot. -/
def allocproc (m : Phys) : Option (Phys × Option Space) :=
  match kalloc m with
  | none => some (m, none)
  | some (trapframe, m) =>
    (procPagetable trampoline m trapframe).bind fun x =>
      match x.2 with
      | some t => some (x.1, some ⟨trapframe, t, 0⟩)
      | none => (kfree x.1 trapframe).map fun m => (m, none)

def freeproc (m : Phys) (s : Space) : Option Phys :=
  (kfree m s.trapframe).bind fun m => procFreepagetable m s.table s.sz

/-- `kfork`: the child, if there is memory for it. -/
def kfork (m : Phys) (s : Space) : Option (Phys × Option Space) :=
  (allocproc trampoline m).bind fun x =>
    match x.2 with
    | none => some (x.1, none)
    | some np =>
      (uvmcopy x.1 s.table np.table s.sz).bind fun y =>
        if y.2.2 = true then some (y.1, some { np with table := y.2.1, sz := s.sz })
        else (freeproc y.1 { np with table := y.2.1 }).map fun m => (m, none)

/-- `growproc`, and whether it returns 0. -/
def growproc (m : Phys) (s : Space) (n : ℤ) : Option (Phys × Space × Bool) :=
  if n > 0 then
    if s.sz + n.toNat > TRAPFRAME * PGSIZE then some (m, s, false)
    else
      (uvmalloc m s.table s.sz (s.sz + n.toNat) dataPerm).map fun x =>
        if x.2.2 = 0 then (x.1, { s with table := x.2.1 }, false)
        else (x.1, { s with table := x.2.1, sz := x.2.2 }, true)
  else if n < 0 then
    -- `sz + n` is computed modulo 2^64
    (uvmdealloc m s.table s.sz ((s.sz + n) % 18446744073709551616).toNat).map fun x =>
      (x.1, { s with table := x.2.1, sz := x.2.2 }, true)
  else some (m, s, true)

/-- `sys_sbrk`, and the address that it returns, if not -1. -/
def sysSbrk (m : Phys) (s : Space) (n : ℤ) (eager : Bool) : Option (Phys × Space × Option ℕ) :=
  if eager = true ∨ n < 0 then
    (growproc m s n).map fun x => (x.1, x.2.1, if x.2.2 = true then some s.sz else none)
  else if s.sz + n.toNat > TRAPFRAME * PGSIZE then some (m, s, none)
  else some (m, { s with sz := s.sz + n.toNat }, some s.sz)

/-- The size that `sys_sbrk` should give a process. It is computed modulo 2^64, and giving up more
    than there is gives up nothing. -/
def brk (sz : ℕ) (n : ℤ) : ℕ :=
  let sz' := ((sz + n) % 18446744073709551616).toNat
  if n < 0 ∧ sz ≤ sz' then sz else sz'

/-- `vmfault` for the page table of the process. The page is `none` if it returns 0. -/
def vmfault (m : Phys) (s : Space) (va : ℕ) : Option (Phys × Space × Option ℕ) :=
  if va ≥ s.sz then some (m, s, none)
  else
    match lookup s.table (va / PGSIZE) with
    | some _ => some (m, s, none)
    | none =>
      match kalloc m with
      | none => some (m, s, none)
      | some (pg, m) =>
        (mappages (m.write pg (memset 0)) s.table (va / PGSIZE) ⟨pg, dataPerm⟩).bind fun x =>
          if x.2.2 = true then some (x.1, { s with table := x.2.1 }, some pg)
          else (kfree x.1 pg).map fun m => (m, { s with table := x.2.1 }, none)

end Model

/-! ### Page tables of processes -/

/-- A table of `n` user pages: apart from the trampoline and the trap frame, nothing is mapped at
    `n` or above, and these two are not for the user. -/
structure Keyed (t : Table) (n : ℕ) : Prop where
  bound : n ≤ TRAPFRAME
  rest : ∀ k < KEYS, n ≤ k → k ≠ TRAPFRAME → k ≠ TRAMPOLINE → lookup t k = none
  hidden : ∀ k < KEYS, TRAPFRAME ≤ k → ∀ pte, lookup t k = some pte → pte.perm.u = false

variable {m m' : Phys} {t t' : Table} {va pg n : ℕ}

theorem Keyed.lookup_eq_none (h : Keyed t n) {k : ℕ} (hle : n ≤ k) (hlt : k < TRAPFRAME) :
    lookup t k = none := by
  have hkeys : TRAPFRAME < KEYS := by decide
  have htramp : TRAPFRAME < TRAMPOLINE := by decide
  exact h.rest k (by omega) hle (by omega) (by omega)

/-- `uvmunmap` of the trampoline or the trap frame, whose page is not freed. -/
theorem uvmunmap_keep (m : Phys) (t : Table) (hle : TRAPFRAME ≤ va) (hlt : va < MAXVA) :
    ∃ t', uvmunmap m t va 1 false = some (m, t') ∧ (∀ pg, labels t' pg = labels t pg) ∧
      (∀ pg, leafUses t' pg = leafUses t pg) ∧
      ∀ k < KEYS, lookup t' k = if k = va then none else lookup t k := by
  have hkey : va < KEYS := hlt.trans (by decide)
  have hkeys : TRAPFRAME < KEYS := by decide
  simp only [uvmunmap, unmapOne, if_pos hlt]
  cases hlookup : lookup t va with
  | none =>
    refine ⟨t, rfl, fun _ => rfl, fun _ => rfl, fun k _ => ?_⟩
    split
    · next hk => rw [hk, hlookup]
    · rfl
  | some pte =>
    refine ⟨erase 3 t va, rfl, labels_erase, fun pg => leafUses_congr fun k hk => ?_,
      fun k hk => lookup_erase hkey hk⟩
    rw [lookup_erase hkey (by omega), if_neg (by omega)]

/-- **`proc_freepagetable` frees the pages of a process**, and nothing else. -/
theorem procFreepagetable_spec (hkeyed : Keyed t (roundUp sz))
    (howns : ∀ pg, labels t pg + leafUses t pg ≠ 0 → m.owns pg) :
    ∃ m', procFreepagetable m t sz = some m' ∧ m'.kend = m.kend ∧
      (∀ pg, m'.free.count pg = held m t pg) ∧
      ∀ pg, labels t pg + leafUses t pg = 0 → m'.mem pg = m.mem pg := by
  obtain ⟨t₁, h₁, hlabels₁, huses₁, hlookup₁⟩ :=
    uvmunmap_keep m t (show TRAPFRAME ≤ TRAMPOLINE by decide) (by decide)
  obtain ⟨t₂, h₂, hlabels₂, huses₂, hlookup₂⟩ :=
    uvmunmap_keep m t₁ (le_refl TRAPFRAME) (by decide)
  have hnone : ∀ k < KEYS, roundUp sz ≤ k → lookup t₂ k = none := by
    intro k hk hle
    rw [hlookup₂ k hk, hlookup₁ k hk]
    split
    · rfl
    · next hframe =>
      split
      · rfl
      · next htramp => exact hkeyed.rest k hk hle hframe htramp
  have hsame : ∀ pg, labels t₂ pg = labels t pg ∧ leafUses t₂ pg = leafUses t pg := fun pg =>
    ⟨(hlabels₂ pg).trans (hlabels₁ pg), (huses₂ pg).trans (huses₁ pg)⟩
  obtain ⟨m', hfree, hkend, hcount, hmem⟩ :=
    uvmfree_spec (m := m) hkeyed.bound hnone fun pg hpg => by
    rw [(hsame pg).1, (hsame pg).2] at hpg
    exact howns pg hpg
  refine ⟨m', ?_, hkend, fun pg => ?_, fun pg hpg => hmem pg ?_⟩
  · rw [procFreepagetable, h₁, Option.bind_some, h₂, Option.bind_some, hfree]
  · rw [hcount, held, held, (hsame pg).1, (hsame pg).2]
  · rw [(hsame pg).1, (hsame pg).2, hpg]

/-! ### Tables in the making -/

/-- A free list that names no page twice, and only pages that `kfree` takes. -/
structure Pool (m : Phys) : Prop where
  once : ∀ pg, m.free.count pg ≤ 1
  owns : ∀ pg ∈ m.free, m.owns pg

/-- All that has been taken is back. -/
structure Restored (m m' : Phys) : Prop where
  kend : m'.kend = m.kend
  count : ∀ pg, m'.free.count pg = m.free.count pg
  mem : ∀ pg ∉ m.free, m'.mem pg = m.mem pg

theorem Restored.refl (m : Phys) : Restored m m :=
  ⟨rfl, fun _ => rfl, fun _ _ => rfl⟩

/-- Table `t` of `n` user pages has been made from pages that were free in `m₀`. -/
structure Draft (m₀ m : Phys) (t : Table) (n : ℕ) : Prop where
  kend : m.kend = m₀.kend
  held : ∀ pg, held m t pg = m₀.free.count pg
  mem : ∀ pg ∉ m₀.free, m.mem pg = m₀.mem pg
  keyed : Keyed t n

namespace Draft

variable {m₀ : Phys}

theorem mem_free (h : Draft m₀ m t n) (hpg : Vm.held m t pg ≠ 0) : pg ∈ m₀.free := by
  rw [h.held] at hpg
  exact List.count_pos_iff.mp (Nat.pos_of_ne_zero hpg)

theorem free_subset (h : Draft m₀ m t n) (hpg : pg ∈ m.free) : pg ∈ m₀.free := by
  have hcount : 0 < m.free.count pg := List.count_pos_iff.mpr hpg
  exact h.mem_free (by rw [Vm.held]; omega)

theorem fine (h : Draft m₀ m t n) (hpool : Pool m₀) : Fine m t where
  once pg := by
    rw [h.held]
    exact hpool.once pg
  owns pg hpg := by
    rw [Phys.owns, h.kend]
    exact hpool.owns pg (h.free_subset hpg)

theorem owns (h : Draft m₀ m t n) (hpool : Pool m₀) (hpg : labels t pg + leafUses t pg ≠ 0) :
    m.owns pg := by
  rw [Phys.owns, h.kend]
  exact hpool.owns pg (h.mem_free (by rw [Vm.held]; omega))

theorem filled (h : Draft m₀ m t n) {hi : ℕ} (hfilled : Filled m t F n hi m' t') (hle : n ≤ hi)
    (hhi : hi ≤ TRAPFRAME) :
    Draft m₀ m' t' hi where
  kend := hfilled.kend.trans h.kend
  held pg := (hfilled.held pg).trans (h.held pg)
  mem pg hpg := by
    rw [hfilled.mem pg fun hfree => hpg (h.free_subset hfree), h.mem pg hpg]
  keyed := by
    refine ⟨hhi, fun k hk hge hframe htramp => ?_, fun k hk hge => ?_⟩
    · rw [hfilled.old k hk (by omega)]
      exact h.keyed.rest k hk (by omega) hframe htramp
    · rw [hfilled.old k hk (by omega)]
      exact h.keyed.hidden k hk hge

theorem discard (h : Draft m₀ m t (roundUp n)) (hpool : Pool m₀) :
    ∃ m', procFreepagetable m t n = some m' ∧ Restored m₀ m' := by
  obtain ⟨m', hfree, hkend, hcount, hmem⟩ :=
    procFreepagetable_spec (m := m) h.keyed fun pg => h.owns hpool
  refine ⟨m', hfree, hkend.trans h.kend, fun pg => (hcount pg).trans (h.held pg), fun pg hpg => ?_⟩
  rw [hmem pg, h.mem pg hpg]
  by_contra hheld
  exact hpg (h.mem_free (by rw [Vm.held]; omega))

end Draft

theorem leafUses_eq_zero (h : ∀ k < TRAPFRAME, lookup t k = none) (pg : ℕ) : leafUses t pg = 0 :=
  Finset.sum_eq_zero fun k hk => by rw [h k (Finset.mem_range.mp hk), maps_none]

namespace Draft

variable {m₀ : Phys}

theorem root {m₁ : Phys} (halloc : kalloc m = some (pg, m₁)) :
    Draft m m₁ (.node pg fun _ => .empty) 0 := by
  obtain ⟨hlist, hkend, hmem⟩ := kalloc_eq_some halloc
  refine ⟨hkend, fun p => ?_, fun p hp => hmem p ?_,
    ⟨Nat.zero_le _, fun _ _ _ _ _ => rfl, fun k _ _ pte hpte => ?_⟩⟩
  · rw [Vm.held, leafUses_eq_zero (fun _ _ => rfl), hlist, List.count_cons]
    simp [labels]
  · rintro rfl
    exact hp (by rw [hlist]; exact List.mem_cons_self)
  · rw [lookup, RadixTree.get] at hpte
    cases hpte

/-- The trampoline or the trap frame is mapped in a table without user pages. -/
theorem mapSpecial (h : Draft m₀ m t 0) (hva : va = TRAPFRAME ∨ va = TRAMPOLINE)
    (hnone : lookup t va = none) (pte : Pte) (hu : pte.perm.u = false) :
    ∃ m' t' ok, mappages m t va pte = some (m', t', ok) ∧ Draft m₀ m' t' 0 ∧
      ∀ k < KEYS, lookup t' k = if ok = true ∧ k = va then some pte else lookup t k := by
  have hmax : TRAPFRAME ≤ va ∧ va < MAXVA := by
    obtain rfl | rfl := hva <;> decide
  have hkeys : TRAPFRAME < KEYS := by decide
  obtain ⟨m', t', ok, hmap, hmem, hkend, hsuffix, hlabels, hlookup⟩ :=
    mappages_spec (m := m) pte hmax.2 hnone
  have hempty : ∀ k < TRAPFRAME, lookup t' k = none := by
    intro k hk
    rw [hlookup k (by omega), if_neg (by omega)]
    exact h.keyed.lookup_eq_none (Nat.zero_le k) hk
  refine ⟨m', t', ok, hmap, ⟨hkend.trans h.kend, fun pg => ?_, fun pg hpg => ?_,
    ⟨Nat.zero_le _, fun k hk _ hframe htramp => ?_, fun k hk hge pte' hpte => ?_⟩⟩, hlookup⟩
  · have hheld := h.held pg
    have hlabel := hlabels pg
    rw [Vm.held, leafUses_eq_zero fun k => h.keyed.lookup_eq_none (Nat.zero_le k)] at hheld
    rw [Vm.held, leafUses_eq_zero hempty]
    omega
  · rw [hmem, h.mem pg hpg]
  · rw [hlookup k hk, if_neg fun hand => ?_]
    · exact h.keyed.rest k hk (Nat.zero_le k) hframe htramp
    · obtain rfl | rfl := hva
      · exact hframe hand.2
      · exact htramp hand.2
  · rw [hlookup k hk] at hpte
    split at hpte
    · cases hpte
      exact hu
    · exact h.keyed.hidden k hk hge pte' hpte

theorem discard_bare (h : Draft m₀ m t 0) (hpool : Pool m₀)
    (hnone : ∀ k < KEYS, lookup t k = none) :
    ∃ m', uvmfree m t 0 = some m' ∧ Restored m₀ m' := by
  obtain ⟨m', hfree, hkend, hcount, hmem⟩ :=
    uvmfree_spec (m := m) (show roundUp 0 ≤ TRAPFRAME from Nat.zero_le _)
      (fun k hk _ => hnone k hk) fun pg => h.owns hpool
  refine ⟨m', hfree, hkend.trans h.kend, fun pg => (hcount pg).trans (h.held pg), fun pg hpg => ?_⟩
  rw [hmem pg, h.mem pg hpg]
  by_contra hheld
  exact hpg (h.mem_free (by rw [Vm.held]; omega))

end Draft

/-- **`proc_pagetable`** makes an empty table, or leaves nothing behind. -/
theorem procPagetable_spec (trampoline trapframe : ℕ) (hpool : Pool m) :
    ∃ m' o, procPagetable trampoline m trapframe = some (m', o) ∧
      (∀ t, o = some t → Draft m m' t 0) ∧ (o = none → Restored m m') := by
  rw [procPagetable, uvmcreate]
  cases halloc : kalloc m with
  | none => exact ⟨m, none, rfl, by simp, fun _ => .refl m⟩
  | some x =>
    have hroot := Draft.root halloc
    obtain ⟨m₁, t₁, ok₁, hmap₁, hdraft₁, hlookup₁⟩ :=
      hroot.mapSpecial (.inr rfl) rfl ⟨trampoline, true, false, true, false⟩ rfl
    simp only [Option.map_some, hmap₁, Option.bind_some]
    cases ok₁ with
    | false =>
      obtain ⟨m', hfree, hrestored⟩ := hdraft₁.discard_bare hpool fun k hk => by
        rw [hlookup₁ k hk, if_neg (by simp)]
        rfl
      refine ⟨m', none, ?_, by simp, fun _ => hrestored⟩
      simp only [Bool.false_eq_true, if_false, hfree, Option.map_some]
    | true =>
      have hframe : lookup t₁ TRAPFRAME = none := by
        rw [hlookup₁ TRAPFRAME (by decide), if_neg (by decide)]
        rfl
      obtain ⟨m₂, t₂, ok₂, hmap₂, hdraft₂, hlookup₂⟩ :=
        hdraft₁.mapSpecial (.inl rfl) hframe ⟨trapframe, true, true, false, false⟩ rfl
      simp only [if_true, hmap₂, Option.bind_some]
      cases ok₂ with
      | true =>
        refine ⟨m₂, some t₂, rfl, fun t ht => ?_, by simp⟩
        cases ht
        exact hdraft₂
      | false =>
        obtain ⟨t₃, hunmap, hlabels, huses, hlookup₃⟩ :=
          uvmunmap_keep m₂ t₂ (show TRAPFRAME ≤ TRAMPOLINE by decide) (by decide)
        have hbare : ∀ k < KEYS, lookup t₃ k = none := by
          intro k hk
          rw [hlookup₃ k hk, hlookup₂ k hk, hlookup₁ k hk]
          split
          · rfl
          · next hne => simp [hne, lookup, RadixTree.get]
        have hdraft₃ : Draft m m₂ t₃ 0 := by
          refine ⟨hdraft₂.kend, fun pg => ?_, hdraft₂.mem, ⟨Nat.zero_le _, fun k hk _ _ _ =>
            hbare k hk, fun k hk _ pte hpte => ?_⟩⟩
          · rw [← hdraft₂.held pg, held, held, hlabels, huses]
          · rw [hbare k hk] at hpte
            cases hpte
        obtain ⟨m', hfree, hrestored⟩ := hdraft₃.discard_bare hpool hbare
        refine ⟨m', none, ?_, by simp, fun _ => hrestored⟩
        simp only [Bool.false_eq_true, if_false, hunmap, Option.bind_some, hfree, Option.map_some]

/-! ### Processes come and go -/

/-- How often a process uses page `pg`. -/
def Space.uses (s : Space) (pg : ℕ) : ℕ :=
  (if s.trapframe = pg then 1 else 0) + labels s.table pg + leafUses s.table pg

/-- What a process sees at page `k`: zeros where nothing has been allocated yet. -/
def Space.contents (s : Space) (m : Phys) (k : ℕ) : Content :=
  if k < roundUp s.sz then (lookup s.table k).elim (memset 0) fun pte => m.mem pte.page
  else memset 0

/-- Process `s` has been made from pages that were free in `m`. -/
structure Born (m m' : Phys) (s : Space) : Prop where
  kend : m'.kend = m.kend
  count : ∀ pg, m'.free.count pg + s.uses pg = m.free.count pg
  mem : ∀ pg ∉ m.free, m'.mem pg = m.mem pg
  keyed : Keyed s.table (roundUp s.sz)

variable {s c : Space} {trampoline : ℕ}

theorem Pool.of_kalloc (h : Pool m) (halloc : kalloc m = some (pg, m')) : Pool m' := by
  obtain ⟨hlist, hkend, -⟩ := kalloc_eq_some halloc
  refine ⟨fun p => ?_, fun p hp => ?_⟩
  · have honce := h.once p
    rw [hlist, List.count_cons] at honce
    omega
  · rw [Phys.owns, hkend]
    exact h.owns p (by rw [hlist]; exact List.mem_cons_of_mem _ hp)

theorem freeproc_spec (hkeyed : Keyed s.table (roundUp s.sz))
    (howns : ∀ pg, s.uses pg ≠ 0 → m.owns pg) :
    ∃ m', freeproc m s = some m' ∧ m'.kend = m.kend ∧
      (∀ pg, m'.free.count pg = m.free.count pg + s.uses pg) ∧
      ∀ pg, s.uses pg = 0 → m'.mem pg = m.mem pg := by
  obtain ⟨m₁, hfree₁, hlist₁, hkend₁, hmem₁⟩ :=
    kfree_eq_some (howns s.trapframe (by simp [Space.uses]))
  obtain ⟨m', hfree, hkend, hcount, hmem⟩ :=
    procFreepagetable_spec (m := m₁) hkeyed fun pg hpg => by
      rw [Phys.owns, hkend₁]
      exact howns pg (by rw [Space.uses]; omega)
  refine ⟨m', ?_, hkend.trans hkend₁, fun pg => ?_, fun pg hpg => ?_⟩
  · rw [freeproc, hfree₁, Option.bind_some, hfree]
  · rw [hcount, held, hlist₁, List.count_cons, Space.uses]
    simp only [beq_iff_eq]
    omega
  · rw [Space.uses] at hpg
    have hne : pg ≠ s.trapframe := by
      rintro rfl
      simp at hpg
    rw [hmem pg (by omega), hmem₁ pg hne]

namespace Born

theorem mem_free (h : Born m m' s) (hpg : s.uses pg ≠ 0) : pg ∈ m.free := by
  have hcount := h.count pg
  exact List.count_pos_iff.mp (by omega)

theorem free_subset (h : Born m m' s) (hpg : pg ∈ m'.free) : pg ∈ m.free := by
  have hcount := h.count pg
  have hpos : 0 < m'.free.count pg := List.count_pos_iff.mpr hpg
  exact List.count_pos_iff.mp (by omega)

theorem discard (h : Born m m' s) (hpool : Pool m) :
    ∃ m'', freeproc m' s = some m'' ∧ Restored m m'' := by
  obtain ⟨m'', hfree, hkend, hcount, hmem⟩ := freeproc_spec (m := m') h.keyed fun pg hpg => by
    rw [Phys.owns, h.kend]
    exact hpool.owns pg (h.mem_free hpg)
  refine ⟨m'', hfree, hkend.trans h.kend, fun pg => (hcount pg).trans (h.count pg),
    fun pg hpg => ?_⟩
  rw [hmem pg, h.mem pg hpg]
  by_contra huses
  exact hpg (h.mem_free huses)

theorem filled (h : Born m m' s) {m'' : Phys} (hsz : s.sz = 0)
    (hfilled : Filled m' s.table F 0 (roundUp sz) m'' t') (hbound : roundUp sz ≤ TRAPFRAME) :
    Born m m'' { s with table := t', sz := sz } where
  kend := hfilled.kend.trans h.kend
  count pg := by
    have hheld := hfilled.held pg
    have hcount := h.count pg
    rw [held, held] at hheld
    rw [Space.uses] at hcount ⊢
    dsimp only
    omega
  mem pg hpg := by
    rw [hfilled.mem pg fun hfree => hpg (h.free_subset hfree), h.mem pg hpg]
  keyed := by
    have hkeyed := h.keyed
    rw [hsz, roundUp_zero] at hkeyed
    refine ⟨hbound, fun k hk hge hframe htramp => ?_, fun k hk hge => ?_⟩
    · dsimp only at hge ⊢
      rw [hfilled.old k hk (by omega)]
      exact hkeyed.rest k hk (Nat.zero_le k) hframe htramp
    · rw [hfilled.old k hk (by omega)]
      exact hkeyed.hidden k hk hge

end Born

/-- **`allocproc`** makes a process without user memory, or leaves nothing behind. -/
theorem allocproc_spec (trampoline : ℕ) (hpool : Pool m) :
    ∃ m' o, allocproc trampoline m = some (m', o) ∧
      (∀ s, o = some s → Born m m' s ∧ s.sz = 0) ∧ (o = none → Restored m m') := by
  rw [allocproc]
  cases halloc : kalloc m with
  | none => exact ⟨m, none, rfl, by simp, fun _ => .refl m⟩
  | some x =>
    obtain ⟨trapframe, m₁⟩ := x
    obtain ⟨hlist, hkend, hmem⟩ := kalloc_eq_some halloc
    have hne : ∀ pg ∉ m.free, pg ≠ trapframe ∧ pg ∉ m₁.free := by
      intro pg hpg
      rw [hlist, List.mem_cons, not_or] at hpg
      exact hpg
    obtain ⟨m₂, o, htable, hsome, hnone⟩ :=
      procPagetable_spec trampoline trapframe (hpool.of_kalloc halloc)
    simp only [htable, Option.bind_some]
    cases o with
    | some t =>
      have hdraft := hsome t rfl
      refine ⟨m₂, some ⟨trapframe, t, 0⟩, rfl, fun s hs => ?_, by simp⟩
      cases hs
      refine ⟨⟨hdraft.kend.trans hkend, fun pg => ?_, fun pg hpg => ?_, ?_⟩, rfl⟩
      · have hheld := hdraft.held pg
        rw [held] at hheld
        rw [Space.uses, hlist, List.count_cons]
        simp only [beq_iff_eq]
        omega
      · rw [hdraft.mem pg (hne pg hpg).2, hmem pg (hne pg hpg).1]
      · dsimp only
        rw [roundUp_zero]
        exact hdraft.keyed
    | none =>
      have hrestored := hnone rfl
      have howns : m₂.owns trapframe := by
        rw [Phys.owns, hrestored.kend, hkend]
        exact hpool.owns _ (by rw [hlist]; exact List.mem_cons_self)
      obtain ⟨m', hfree, hlist', hkend', hmem'⟩ := kfree_eq_some howns
      refine ⟨m', none, ?_, by simp, fun _ => ⟨hkend'.trans (hrestored.kend.trans hkend),
        fun pg => ?_, fun pg hpg => ?_⟩⟩
      · simp only [hfree, Option.map_some]
      · rw [hlist', hlist, List.count_cons, List.count_cons, hrestored.count]
      · rw [hmem' pg (hne pg hpg).1, hrestored.mem pg (hne pg hpg).2, hmem pg (hne pg hpg).1]

/-- **`kfork`** makes a process that sees what its parent sees, or leaves nothing behind. -/
theorem kfork_spec (trampoline : ℕ) (hpool : Pool m) (hkeyed : Keyed s.table (roundUp s.sz))
    (hpages : ∀ k pte, k < TRAPFRAME → lookup s.table k = some pte → pte.page ∉ m.free) :
    ∃ m' o, kfork trampoline m s = some (m', o) ∧
      (∀ c, o = some c → Born m m' c ∧ c.sz = s.sz ∧ ∀ k, c.contents m' k = s.contents m k) ∧
      (o = none → Restored m m') := by
  obtain ⟨m₁, o, halloc, hsome, hnone⟩ := allocproc_spec trampoline hpool
  rw [kfork, halloc, Option.bind_some]
  cases o with
  | none => exact ⟨m₁, none, rfl, by simp, hnone⟩
  | some np =>
    obtain ⟨hborn, hzero⟩ := hsome np rfl
    have hfine : Fine m₁ np.table := by
      refine ⟨fun pg => ?_, fun pg hpg => ?_⟩
      · have hcount := hborn.count pg
        have honce := hpool.once pg
        rw [Space.uses] at hcount
        rw [held]
        omega
      · rw [Phys.owns, hborn.kend]
        exact hpool.owns pg (hborn.free_subset hpg)
    have hfresh : ∀ k < TRAPFRAME, lookup np.table k = none := by
      intro k hk
      have hnp := hborn.keyed
      rw [hzero, roundUp_zero] at hnp
      exact hnp.lookup_eq_none (Nat.zero_le k) hk
    obtain ⟨m', t', ok, hcopy, hok, hfail⟩ :=
      uvmcopyLoop_spec (i := 0) (n := roundUp s.sz) s.table hfine
        (by rw [Nat.zero_add]; exact hkeyed.bound) hfresh
        (fun k pte hk hpte hfree => hpages k pte hk hpte (hborn.free_subset hfree))
        (.refl m₁ np.table _ 0)
    rw [Nat.zero_add] at hok
    simp only [uvmcopy, hcopy, Option.bind_some]
    cases ok with
    | true =>
      have hfilled := hok rfl
      refine ⟨m', some { np with table := t', sz := s.sz }, rfl, fun c hc => ?_, by simp⟩
      cases hc
      refine ⟨hborn.filled hzero hfilled hkeyed.bound, rfl, fun k => ?_⟩
      rw [Space.contents, Space.contents]
      dsimp only
      split
      · next hk =>
        have hlt : k < TRAPFRAME := hk.trans_le hkeyed.bound
        cases hlookup : lookup s.table k with
        | none =>
          have hF : copyOf m₁ s.table k = none := by rw [copyOf, hlookup, Option.map_none]
          rw [hfilled.none k (Nat.zero_le k) hk hF]
          rfl
        | some pte =>
          have hF : copyOf m₁ s.table k = some (pte.perm, m₁.mem pte.page) := by
            rw [copyOf, hlookup, Option.map_some]
          obtain ⟨pg, -, hnew, hcontent⟩ := hfilled.some k _ _ (Nat.zero_le k) hk hF
          rw [hnew]
          change m'.mem pg = m.mem pte.page
          rw [hcontent, hborn.mem _ (hpages k pte hlt hlookup)]
      · rfl
    | false =>
      have hbare : Born m m' { np with table := t', sz := 0 } :=
        hborn.filled hzero (hfail rfl) (Nat.zero_le _)
      obtain ⟨m'', hfree, hrestored⟩ := hbare.discard hpool
      have hnp : ({ np with table := t' } : Space) = { np with table := t', sz := 0 } := by
        rw [← hzero]
      refine ⟨m'', none, ?_, by simp, fun _ => hrestored⟩
      simp only [Bool.false_eq_true, if_false, hnp, hfree, Option.map_some]

/-! ### Processes change -/

/-- A process in a healthy kernel. -/
structure Mine (m : Phys) (s : Space) : Prop where
  once : ∀ pg, held m s.table pg ≤ 1
  owns : ∀ pg, held m s.table pg ≠ 0 → m.owns pg
  keyed : Keyed s.table (roundUp s.sz)
  size : s.sz ≤ TRAPFRAME * PGSIZE

/-- The process has changed, and its pages and the free ones with it. -/
structure Turned (m : Phys) (s : Space) (m' : Phys) (s' : Space) : Prop where
  kend : m'.kend = m.kend
  trapframe : s'.trapframe = s.trapframe
  held : ∀ pg, held m' s'.table pg = held m s.table pg
  mem : ∀ pg, Vm.held m s.table pg = 0 → m'.mem pg = m.mem pg
  keyed : Keyed s'.table (roundUp s'.sz)
  size : s'.sz ≤ TRAPFRAME * PGSIZE

theorem roundUp_le (h : sz ≤ n * PGSIZE) : roundUp sz ≤ n :=
  (roundUp_mono h).trans_eq (roundUp_mul n)

theorem lt_roundUp (h : va < sz) : va / PGSIZE < roundUp sz := by
  rw [roundUp, PGSIZE]
  omega

namespace Mine

theorem fine (h : Mine m s) : Fine m s.table :=
  ⟨h.once, fun pg hpg => h.owns pg (by
    have hpos : 0 < m.free.count pg := List.count_pos_iff.mpr hpg
    rw [held]
    omega)⟩

theorem pool (h : Mine m s) : Pool m :=
  ⟨fun pg => by
    have honce := h.once pg
    rw [held] at honce
    omega, h.fine.owns⟩

theorem notMem_free (h : Mine m s) (hpos : 0 < leafUses s.table pg) : pg ∉ m.free := by
  intro hfree
  have hcount : 0 < m.free.count pg := List.count_pos_iff.mpr hfree
  have honce := h.once pg
  rw [held] at honce
  omega

theorem page_notMem_free (h : Mine m s) {k : ℕ} {pte : Pte} (hk : k < TRAPFRAME)
    (hlookup : lookup s.table k = some pte) : pte.page ∉ m.free :=
  h.notMem_free (leafUses_pos hk hlookup)

theorem turned_refl (h : Mine m s) : Turned m s m s :=
  ⟨rfl, rfl, fun _ => rfl, fun _ _ => rfl, h.keyed, h.size⟩

theorem turned_filled (h : Mine m s) {lo hi : ℕ} (hfilled : Filled m s.table F lo hi m' t')
    (hhi : hi ≤ roundUp sz) (hsz : s.sz ≤ sz) (hsize : sz ≤ TRAPFRAME * PGSIZE) :
    Turned m s m' { s with table := t', sz := sz } where
  kend := hfilled.kend
  trapframe := rfl
  held := hfilled.held
  mem pg hpg := by
    refine hfilled.mem pg fun hfree => ?_
    have hpos : 0 < m.free.count pg := List.count_pos_iff.mpr hfree
    rw [Vm.held] at hpg
    omega
  keyed := by
    have hmono := roundUp_mono hsz
    have hbound := roundUp_le hsize
    refine ⟨hbound, fun k hk hge hframe htramp => ?_, fun k hk hge => ?_⟩
    · dsimp only at hge ⊢
      rw [hfilled.old k hk (by omega)]
      exact h.keyed.rest k hk (by omega) hframe htramp
    · rw [hfilled.old k hk (by omega)]
      exact h.keyed.hidden k hk hge
  size := hsize

theorem contents_filled (h : Mine m s) {lo hi : ℕ} (hfilled : Filled m s.table F lo hi m' t')
    (hF : ∀ k, ∃ perm, F k = some (perm, memset 0))
    (hempty : ∀ k, lo ≤ k → k < hi → lookup s.table k = none) (hsz : s.sz ≤ sz)
    (hsize : sz ≤ TRAPFRAME * PGSIZE) (k : ℕ) :
    Space.contents { s with table := t', sz := sz } m' k = s.contents m k := by
  have hmono := roundUp_mono hsz
  have hkeys : TRAPFRAME < KEYS := by decide
  have hbound := roundUp_le hsize
  rw [Space.contents, Space.contents]
  dsimp only
  by_cases hk : k < roundUp sz
  · rw [if_pos hk]
    by_cases hin : lo ≤ k ∧ k < hi
    · obtain ⟨perm, hFk⟩ := hF k
      obtain ⟨pg, -, hlookup, hcontent⟩ := hfilled.some k perm _ hin.1 hin.2 hFk
      rw [hlookup, hempty k hin.1 hin.2]
      simp [hcontent]
    · rw [hfilled.old k (by omega) hin]
      cases hlookup : lookup s.table k with
      | none => simp
      | some pte =>
        have hlt : k < roundUp s.sz := by
          by_contra hge
          rw [h.keyed.lookup_eq_none (by omega) (by omega)] at hlookup
          cases hlookup
        rw [if_pos hlt]
        exact hfilled.mem _ (h.page_notMem_free (by omega) hlookup)
  · rw [if_neg hk, if_neg (by omega)]

theorem growproc_pos (h : Mine m s) {n : ℤ} (hn : 0 < n)
    (hsize : s.sz + n.toNat ≤ TRAPFRAME * PGSIZE) :
    ∃ m' s' ok, growproc m s n = some (m', s', ok) ∧ Turned m s m' s' ∧
      s'.sz = (if ok = true then s.sz + n.toNat else s.sz) ∧
      ∀ k, s'.contents m' k = s.contents m k := by
  have hsz : s.sz < s.sz + n.toNat := by omega
  have hbound := roundUp_le hsize
  have hempty : ∀ k, roundUp s.sz ≤ k → k < TRAPFRAME → lookup s.table k = none := fun k =>
    h.keyed.lookup_eq_none
  obtain ⟨m', t', r, halloc, hresult⟩ := uvmalloc_spec dataPerm h.fine hsz.le hempty
    fun b _ _ _ hb _ => hb.trans_le hbound
  rw [growproc, if_pos hn, if_neg (by omega), halloc, Option.map_some]
  obtain ⟨rfl, hfilled⟩ | ⟨rfl, hfilled⟩ := hresult
  · rw [if_neg (show s.sz + n.toNat ≠ 0 by omega)]
    exact ⟨m', _, true, rfl, h.turned_filled hfilled le_rfl hsz.le hsize, rfl,
      h.contents_filled hfilled (fun _ => ⟨_, rfl⟩) (fun k hk hk' => hempty k hk (by omega)) hsz.le
        hsize⟩
  · rw [if_pos rfl]
    exact ⟨m', _, false, rfl, h.turned_filled hfilled le_rfl le_rfl h.size, rfl,
      h.contents_filled hfilled (fun _ => ⟨_, rfl⟩) (fun k hk hk' => by omega) le_rfl h.size⟩

theorem dealloc (h : Mine m s) (hsz : sz < s.sz) :
    ∃ m' t', uvmdealloc m s.table s.sz sz = some (m', t', sz) ∧
      Turned m s m' { s with table := t', sz := sz } ∧
      ∀ k, Space.contents { s with table := t', sz := sz } m' k =
        if k < roundUp sz then s.contents m k else memset 0 := by
  have hmono := roundUp_mono hsz.le
  have hbound := h.keyed.bound
  have hkeys : TRAPFRAME < KEYS := by decide
  have hadd : roundUp sz + (roundUp s.sz - roundUp sz) = roundUp s.sz := by omega
  -- also if no page is unmapped
  have heq : uvmdealloc m s.table s.sz sz =
      (uvmunmap m s.table (roundUp sz) (roundUp s.sz - roundUp sz) true).map fun x =>
        (x.1, x.2, sz) := by
    rw [uvmdealloc, if_neg (by omega)]
    split
    · rfl
    · next hge =>
      rw [show roundUp s.sz - roundUp sz = 0 by omega]
      rfl
  obtain ⟨m', t', hunmap, hkend, hheld, hlookup, hframe⟩ :=
    uvmunmap_free (m := m) (t := s.table) (roundUp sz) (roundUp s.sz - roundUp sz)
      (by omega) fun k pte _ hk hpte => by
        have hpos := leafUses_pos (by omega) hpte
        exact h.owns pte.page (by rw [held]; omega)
  rw [hadd] at hlookup hframe
  refine ⟨m', t', by rw [heq, hunmap, Option.map_some],
    ⟨hkend, rfl, fun pg => (hheld pg).2, fun pg hpg => ?_,
      ⟨hmono.trans hbound, fun k hk hge hf ht => ?_, fun k hk hge => ?_⟩, hsz.le.trans h.size⟩,
    fun k => ?_⟩
  · refine (hframe pg fun k _ hk heq => ?_).1
    obtain ⟨pte, hpte, rfl⟩ := Option.map_eq_some_iff.mp heq
    have hpos := leafUses_pos (by omega) hpte
    rw [held] at hpg
    omega
  · dsimp only at hge ⊢
    rw [hlookup k hk]
    split
    · rfl
    · exact h.keyed.rest k hk (by omega) hf ht
  · rw [hlookup k hk, if_neg (by omega)]
    exact h.keyed.hidden k hk hge
  · rw [Space.contents, Space.contents]
    dsimp only
    split
    · next hk =>
      rw [if_pos (by omega), hlookup k (by omega), if_neg (by omega)]
      cases hk' : lookup s.table k with
      | none => rfl
      | some pte =>
        -- a page below the new size is not mapped above it
        refine (hframe pte.page fun j hj hj' heq => ?_).1
        obtain ⟨pte', hpte', hpage⟩ := Option.map_eq_some_iff.mp heq
        have honce := h.once pte.page
        rw [held] at honce
        have hjk := eq_of_lookup (by omega) (by omega) hk' hpte' hpage (by omega)
        omega
    · rfl

/-- **`sys_sbrk`** changes the size, or fails and changes nothing. The pages that stay are as they
    were, and the new ones are zero, whether they are allocated now or later. -/
theorem sysSbrk (h : Mine m s) (n : ℤ) (eager : Bool) :
    ∃ m' s' o, Vm.sysSbrk m s n eager = some (m', s', o) ∧ Turned m s m' s' ∧
      (o = none ∧ s'.sz = s.sz ∨ o = some s.sz ∧ s'.sz = brk s.sz n) ∧
      ∀ k, s'.contents m' k = if k < roundUp s'.sz then s.contents m k else memset 0 := by
  -- contents beyond the size are zero anyway
  have hclip : ∀ {s' : Space} {m' : Phys}, (∀ k, s'.contents m' k = s.contents m k) →
      ∀ k, s'.contents m' k = if k < roundUp s'.sz then s.contents m k else memset 0 := by
    intro s' m' hsame k
    rw [← hsame k]
    split
    · rfl
    · next hk => rw [Space.contents, if_neg hk]
  have hfail : ∃ m' s' o, some (m, s, (none : Option ℕ)) = some (m', s', o) ∧ Turned m s m' s' ∧
      (o = none ∧ s'.sz = s.sz ∨ o = some s.sz ∧ s'.sz = brk s.sz n) ∧
      ∀ k, s'.contents m' k = if k < roundUp s'.sz then s.contents m k else memset 0 :=
    ⟨m, s, none, rfl, h.turned_refl, .inl ⟨rfl, rfl⟩, hclip fun _ => rfl⟩
  -- a larger size does not wrap around
  have hgrow : 0 ≤ n → s.sz + n.toNat ≤ TRAPFRAME * PGSIZE → brk s.sz n = s.sz + n.toNat := by
    intro hn hle
    rw [TRAPFRAME, MAXVA, PGSIZE] at hle
    rw [brk, if_neg (by omega)]
    omega
  rw [Vm.sysSbrk]
  split
  · by_cases hpos : 0 < n
    · by_cases hsize : s.sz + n.toNat > TRAPFRAME * PGSIZE
      · rw [growproc, if_pos hpos, if_pos hsize]
        exact hfail
      · obtain ⟨m', s', ok, hcall, hturned, hsz, hcontents⟩ := h.growproc_pos hpos (by omega)
        rw [hcall]
        refine ⟨m', s', _, rfl, hturned, ?_, hclip hcontents⟩
        rw [hgrow hpos.le (by omega), hsz]
        cases ok with
        | false => exact .inl ⟨rfl, rfl⟩
        | true => exact .inr ⟨rfl, rfl⟩
    · rw [growproc, if_neg hpos]
      split
      · next hneg =>
        rw [brk]
        by_cases hlt : ((s.sz + n) % 18446744073709551616).toNat < s.sz
        · obtain ⟨m', t', hdealloc, hturned, hcontents⟩ := h.dealloc hlt
          rw [hdealloc, if_neg (by omega)]
          exact ⟨m', _, _, rfl, hturned, .inr ⟨rfl, rfl⟩, hcontents⟩
        · rw [uvmdealloc, if_pos (by omega), if_pos (by omega)]
          exact ⟨m, s, _, rfl, h.turned_refl, .inr ⟨rfl, rfl⟩, hclip fun _ => rfl⟩
      · next hzero =>
        refine ⟨m, s, _, rfl, h.turned_refl, .inr ⟨rfl, ?_⟩, hclip fun _ => rfl⟩
        rw [hgrow (by omega) (by have := h.size; omega)]
        omega
  · split
    · exact hfail
    · next hsize =>
      have hfilled : Filled m s.table (fun _ => some (dataPerm, memset 0)) 0 0 m s.table :=
        .refl m s.table _ 0
      exact ⟨m, { s with sz := s.sz + n.toNat }, _, rfl,
        h.turned_filled hfilled (Nat.zero_le _) (by omega) (by omega),
        .inr ⟨rfl, (hgrow (by omega) (by omega)).symm⟩,
        hclip (h.contents_filled hfilled (fun _ => ⟨_, rfl⟩) (fun _ _ => by omega) (by omega)
          (by omega))⟩

/-- **A page fault cannot be seen**: `vmfault` allocates a page of zeros, or does nothing. -/
theorem vmfault (h : Mine m s) (va : ℕ) :
    ∃ m' s' o, Vm.vmfault m s va = some (m', s', o) ∧ Turned m s m' s' ∧ s'.sz = s.sz ∧
      (∀ k, s'.contents m' k = s.contents m k) ∧
      ∀ pg, o = some pg → va < s.sz ∧ lookup s'.table (va / PGSIZE) = some ⟨pg, dataPerm⟩ := by
  have hstay : ∃ m' s' o, some (m, s, none) = some (m', s', o) ∧ Turned m s m' s' ∧ s'.sz = s.sz ∧
      (∀ k, s'.contents m' k = s.contents m k) ∧
      ∀ pg, o = some pg → va < s.sz ∧ lookup s'.table (va / PGSIZE) = some ⟨pg, dataPerm⟩ :=
    ⟨m, s, none, rfl, h.turned_refl, rfl, fun _ => rfl, by simp⟩
  rw [Vm.vmfault]
  split
  · exact hstay
  · next hva =>
    have hlt : va / PGSIZE < roundUp s.sz := lt_roundUp (by omega)
    have hbound := h.keyed.bound
    have hmax : TRAPFRAME < MAXVA := by decide
    have hkeys : MAXVA < KEYS := by decide
    cases hlookup : lookup s.table (va / PGSIZE) with
    | some pte => exact hstay
    | none =>
      cases halloc : kalloc m with
      | none => exact hstay
      | some x =>
        let F : ℕ → Option (Perm × Content) := fun _ => some (dataPerm, memset 0)
        have hF : ∀ k, ∃ perm, F k = some (perm, memset 0) := fun _ => ⟨_, rfl⟩
        obtain ⟨m₁, t₁, ok, hmap, hok, hfail⟩ :=
          (Filled.refl m s.table F (va / PGSIZE)).put h.fine le_rfl (by omega) hlookup rfl halloc
        have hempty : ∀ k, va / PGSIZE ≤ k → k < va / PGSIZE + 1 → lookup s.table k = none := by
          intro k hk hk'
          rw [show k = va / PGSIZE by omega, hlookup]
        simp only [hmap, Option.bind_some]
        cases ok with
        | true =>
          have hfilled := hok rfl
          refine ⟨m₁, _, some x.1, rfl, h.turned_filled hfilled hlt le_rfl h.size, rfl,
            h.contents_filled hfilled hF hempty le_rfl h.size, fun pg hpg => ⟨by omega, ?_⟩⟩
          cases hpg
          obtain ⟨_, _, _, hmap', -, -, -, -, hnew⟩ := mappages_spec (m := x.2.write x.1 (memset 0))
            ⟨x.1, dataPerm⟩ (by omega) hlookup
          rw [hmap] at hmap'
          cases hmap'
          dsimp only
          rw [hnew _ (by omega), if_pos ⟨rfl, rfl⟩]
        | false =>
          obtain ⟨m₂, hfree, hfilled⟩ := hfail rfl
          refine ⟨m₂, { s with table := t₁ }, none, ?_,
            h.turned_filled hfilled hlt.le le_rfl h.size,
            rfl, h.contents_filled hfilled hF (fun k hk hk' => by omega) le_rfl h.size, by simp⟩
          simp only [Bool.false_eq_true, if_false, hfree, Option.map_some]

end Mine

end MiniOs.Xv6.Vm
