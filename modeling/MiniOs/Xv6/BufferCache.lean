import Mathlib.Data.Fintype.Basic
import Mathlib.Data.List.FinRange
import Mathlib.Data.List.Perm.Basic
import MiniOs.Lib.DList
import MiniOs.Lib.Trace

/-!
# The buffer cache

`bio.c`: thirty buffers hold copies of disk blocks, linked in the order in which they were last
released. The functions hold `bcache.lock` while they use the list, the keys and the reference
counts, so each of them is one step. The sleep lock of a buffer is not modelled: any caller that
has a reference may use the buffer at any time.

The callers are part of the model. They release only references that they have, and they use no
block of device 0. They may release a buffer that they have changed before it has been written.
`log.c` pins a changed buffer, so that it stays, but `writei` does not pass it a block whose copy
from user memory has failed halfway; when such a buffer is recycled, the change is lost.
-/

namespace MiniOs.Xv6.Bcache

open Trace DList

/-- `NBUF` of `param.h`. -/
def NBUF : ℕ := 30

/-- A buffer of the array. -/
abbrev Slot := Fin NBUF

/-- Device and block number. -/
abbrev Key := ℕ × ℕ

/-- `struct buf`, without the links and the sleep lock. -/
structure Buf (β : Type*) where
  key : Key
  valid : Bool
  refcnt : ℕ
  data : β

structure Cache (β : Type*) where
  buf : Slot → Buf β
  links : Links Slot
  disk : Key → β

variable {β : Type*}

def Cache.modify (c : Cache β) (i : Slot) (f : Buf β → Buf β) : Cache β :=
  { c with buf := Function.update c.buf i (f (c.buf i)) }

/-- Change the reference count of one buffer. -/
def Cache.setRef (c : Cache β) (i : Slot) (f : ℕ → ℕ) : Cache β :=
  c.modify i fun b => { b with refcnt := f b.refcnt }

/-- The loops of `bget` run over the sentinel and all buffers. -/
def fuel : ℕ := NBUF + 1

/-- `bget`, with the buffer that it returns; `none` is its panic. -/
def bget (c : Cache β) (k : Key) : Option (Slot × Cache β) :=
  match walk c.links.next (fun i => (c.buf i).key = k) fuel (c.links.next none) with
  | some i => some (i, c.setRef i (· + 1))
  | none =>
    match walk c.links.prev (fun i => (c.buf i).refcnt = 0) fuel (c.links.prev none) with
    | some i => some (i, c.modify i fun b => { b with key := k, valid := false, refcnt := 1 })
    | none => none

/-- The rest of `bread`: the block is read if the buffer is not valid. -/
def load (c : Cache β) (i : Slot) : Cache β :=
  if (c.buf i).valid then c
  else c.modify i fun b => { b with data := c.disk b.key, valid := true }

def bwrite (c : Cache β) (i : Slot) : Cache β :=
  { c with disk := Function.update c.disk (c.buf i).key (c.buf i).data }

def brelse (c : Cache β) (i : Slot) : Cache β :=
  let c := c.setRef i (· - 1)
  if (c.buf i).refcnt = 0 then { c with links := pushFront (unlink c.links i) i } else c

def bpin (c : Cache β) (i : Slot) : Cache β := c.setRef i (· + 1)

def bunpin (c : Cache β) (i : Slot) : Cache β := c.setRef i (· - 1)

def binit (zero : β) (disk : Key → β) : Cache β where
  buf _ := ⟨(0, 0), false, 0, zero⟩
  links := (List.finRange NBUF).foldl pushFront empty
  disk := disk

/-! ### Lookups -/

variable {c : Cache β} {l : List Slot} {k : Key}

/-- The links form a list of all buffers. -/
structure Listed (c : Cache β) (l : List Slot) : Prop where
  holds : Holds c.links l
  perm : l.Perm (List.finRange NBUF)

theorem Listed.mem (h : Listed c l) (i : Slot) : i ∈ l := h.perm.mem_iff.mpr (List.mem_finRange i)

theorem Listed.length (h : Listed c l) : l.length < fuel := by
  rw [h.perm.length_eq, List.length_finRange]
  exact Nat.lt_succ_self NBUF

theorem Listed.bget (h : Listed c l) (k : Key) :
    bget c k =
      match l.find? fun i => (c.buf i).key = k with
      | some i => some (i, c.setRef i (· + 1))
      | none =>
        match l.reverse.find? fun i => (c.buf i).refcnt = 0 with
        | some i => some (i, c.modify i fun b => { b with key := k, valid := false, refcnt := 1 })
        | none => none := by
  rw [Bcache.bget, h.holds.walk_next h.length, h.holds.walk_prev h.length]

theorem listed_binit (zero : β) (disk : Key → β) :
    Listed (binit zero disk) (List.finRange NBUF).reverse := by
  -- by induction on the buffers that have been linked
  have hfold : ∀ (rest l : List Slot) (L : Links Slot), Holds L l → (l ++ rest).Nodup →
      Holds (rest.foldl pushFront L) (rest.reverse ++ l) := by
    intro rest
    induction rest with
    | nil =>
      intro l L hL _
      exact hL
    | cons i rest ih =>
      intro l L hL hnodup
      rw [List.foldl_cons, List.reverse_cons, List.append_assoc]
      have hi : i ∉ l := fun hmem =>
        (List.nodup_append.mp hnodup).2.2 i hmem i List.mem_cons_self rfl
      refine ih (i :: l) _ (hL.pushFront hi) ?_
      exact List.perm_middle.nodup_iff.mp hnodup
  refine ⟨?_, List.reverse_perm _⟩
  have hall := hfold (List.finRange NBUF) [] empty holds_empty (List.nodup_finRange NBUF)
  rwa [List.append_nil] at hall

theorem Cache.modify_self {i : Slot} {f : Buf β → Buf β} : (c.modify i f).buf i = f (c.buf i) :=
  Function.update_self ..

theorem Cache.modify_of_ne {i j : Slot} {f : Buf β → Buf β} (hj : j ≠ i) :
    (c.modify i f).buf j = c.buf j :=
  Function.update_of_ne hj ..

theorem Cache.modify_frame {i : Slot} {f : Buf β → Buf β}
    (hkey : (f (c.buf i)).key = (c.buf i).key)
    (hrefcnt : (f (c.buf i)).refcnt = (c.buf i).refcnt) (j : Slot) :
    ((c.modify i f).buf j).key = (c.buf j).key ∧
      ((c.modify i f).buf j).refcnt = (c.buf j).refcnt := by
  by_cases hj : j = i
  · subst hj
    rw [Cache.modify_self]
    exact ⟨hkey, hrefcnt⟩
  · rw [Cache.modify_of_ne hj]
    exact ⟨rfl, rfl⟩

theorem load_frame (c : Cache β) (i : Slot) : (load c i).links = c.links ∧
    ∀ j, ((load c i).buf j).key = (c.buf j).key ∧
      ((load c i).buf j).refcnt = (c.buf j).refcnt := by
  rw [load]
  split
  · exact ⟨rfl, fun _ => ⟨rfl, rfl⟩⟩
  · exact ⟨rfl, Cache.modify_frame rfl rfl⟩

section SetRef

variable {i j : Slot} {f : ℕ → ℕ}

@[simp]
theorem Cache.setRef_refcnt_self : ((c.setRef i f).buf i).refcnt = f (c.buf i).refcnt := by
  rw [Cache.setRef, Cache.modify_self]

theorem Cache.setRef_of_ne (hj : j ≠ i) : (c.setRef i f).buf j = c.buf j := Cache.modify_of_ne hj

theorem Cache.setRef_frame (j : Slot) : ((c.setRef i f).buf j).key = (c.buf j).key ∧
    ((c.setRef i f).buf j).valid = (c.buf j).valid ∧
    ((c.setRef i f).buf j).data = (c.buf j).data := by
  by_cases hj : j = i
  · subst hj
    rw [Cache.setRef, Cache.modify_self]
    exact ⟨rfl, rfl, rfl⟩
  · rw [Cache.setRef_of_ne hj]
    exact ⟨rfl, rfl, rfl⟩

end SetRef

/-- What `bget` does: it finds the block, or takes the last buffer that nobody refers to. -/
inductive Gets (c : Cache β) (l : List Slot) (k : Key) : Slot → Cache β → Prop where
  | hit {i : Slot} (hi : (c.buf i).key = k) :
      Gets c l k i (c.setRef i (· + 1))
  | miss {i : Slot} (hnone : ∀ j, (c.buf j).key ≠ k)
      (hi : l.reverse.find? (fun i => (c.buf i).refcnt = 0) = some i) :
      Gets c l k i (c.modify i fun b => { b with key := k, valid := false, refcnt := 1 })

/-- **Inversion** of `bget`. -/
theorem Listed.gets (h : Listed c l) {i : Slot} {c' : Cache β}
    (hget : Bcache.bget c k = some (i, c')) :
    Gets c l k i c' := by
  rw [h.bget] at hget
  cases hfind : l.find? fun i => (c.buf i).key = k with
  | some j =>
    simp only [hfind] at hget
    cases hget
    have hj := List.find?_some hfind
    exact .hit (of_decide_eq_true hj)
  | none =>
    simp only [hfind] at hget
    cases hfree : l.reverse.find? fun i => (c.buf i).refcnt = 0 with
    | some j =>
      simp only [hfree] at hget
      cases hget
      refine .miss (fun j hj => ?_) hfree
      exact List.find?_eq_none.mp hfind j (h.mem j) (decide_eq_true hj)
    | none =>
      simp only [hfree] at hget
      cases hget

/-- `bget` panics if the block is not cached and all buffers are in use, and only then. -/
theorem Listed.bget_eq_none (h : Listed c l) :
    Bcache.bget c k = none ↔ ∀ i, (c.buf i).key ≠ k ∧ (c.buf i).refcnt ≠ 0 := by
  rw [h.bget]
  constructor
  · intro hnone
    cases hfind : l.find? fun i => (c.buf i).key = k with
    | some j =>
      simp only [hfind] at hnone
      cases hnone
    | none =>
      cases hfree : l.reverse.find? fun i => (c.buf i).refcnt = 0 with
      | some j =>
        simp only [hfind, hfree] at hnone
        cases hnone
      | none =>
        intro i
        refine ⟨fun hi => ?_, fun hi => ?_⟩
        · exact List.find?_eq_none.mp hfind i (h.mem i) (decide_eq_true hi)
        · exact List.find?_eq_none.mp hfree i (List.mem_reverse.mpr (h.mem i)) (decide_eq_true hi)
  · intro hall
    have hfind : (l.find? fun i => (c.buf i).key = k) = none :=
      List.find?_eq_none.mpr fun i _ hi => (hall i).1 (of_decide_eq_true hi)
    have hfree : (l.reverse.find? fun i => (c.buf i).refcnt = 0) = none :=
      List.find?_eq_none.mpr fun i _ hi => (hall i).2 (of_decide_eq_true hi)
    simp only [hfind, hfree]

/-- `brelse` in terms of the list: a buffer whose last reference goes moves to the front. -/
theorem Listed.brelse (h : Listed c l) (i : Slot) :
    Listed (brelse c i) (if (c.buf i).refcnt - 1 = 0 then i :: l.erase i else l) := by
  rw [Bcache.brelse]
  simp only [Cache.setRef_refcnt_self]
  split
  · refine ⟨(h.holds.unlink (h.mem i)).pushFront h.holds.nodup.not_mem_erase, ?_⟩
    exact (List.perm_cons_erase (h.mem i)).symm.trans h.perm
  · exact ⟨h.holds, h.perm⟩

/-! ### The callers -/

structure World (β : Type*) where
  cache : Cache β
  /-- The references that callers have, each with the block that it was asked for. -/
  refs : List (Slot × Key)
  /-- The buffer has been changed since it was read or written. -/
  dirty : Slot → Bool
  /-- What has last been stored for a block. -/
  contents : Key → β
  /-- When the last reference to a buffer was released. -/
  stamp : Slot → ℕ
  clock : ℕ

inductive Op (β : Type*) where
  | bget (k : Key)
  | load (i : Slot)
  | store (i : Slot) (v : β)
  | bwrite (i : Slot)
  | brelse (i : Slot) (k : Key)
  | bpin (i : Slot) (k : Key)
  | bunpin (i : Slot) (k : Key)

def Cache.store (c : Cache β) (i : Slot) (v : β) : Cache β :=
  c.modify i fun b => { b with data := v }

/-- Some caller refers to the buffer, and it is valid. -/
def World.uses (w : World β) (i : Slot) : Prop :=
  i ∈ w.refs.map Prod.fst ∧ (w.cache.buf i).valid = true

instance (w : World β) (i : Slot) : Decidable (w.uses i) := inferInstanceAs (Decidable (_ ∧ _))

def World.step (w : World β) : Op β → Option (World β)
  | .bget k =>
    if k.1 ≠ 0 then
      (Bcache.bget w.cache k).map fun x =>
        { w with
          cache := x.2
          refs := (x.1, k) :: w.refs
          -- a buffer that is recycled holds nothing yet
          dirty := fun i => w.dirty i && (x.2.buf i).valid }
    else none
  | .load i =>
    if i ∈ w.refs.map Prod.fst then some { w with cache := load w.cache i } else none
  | .store i v =>
    if w.uses i then
      some { w with
        cache := w.cache.store i v
        dirty := Function.update w.dirty i true
        contents := Function.update w.contents (w.cache.buf i).key v }
    else none
  | .bwrite i =>
    if w.uses i then
      some { w with cache := bwrite w.cache i, dirty := Function.update w.dirty i false }
    else none
  | .brelse i k =>
    if (i, k) ∈ w.refs then
      if (w.cache.buf i).refcnt - 1 = 0 then
        some { w with
          cache := brelse w.cache i
          refs := w.refs.erase (i, k)
          stamp := Function.update w.stamp i w.clock
          clock := w.clock + 1 }
      else some { w with cache := brelse w.cache i, refs := w.refs.erase (i, k) }
    else none
  | .bpin i k =>
    if (i, k) ∈ w.refs then
      some { w with cache := bpin w.cache i, refs := (i, k) :: w.refs }
    else none
  | .bunpin i k =>
    if (i, k) ∈ w.refs then
      some { w with cache := bunpin w.cache i, refs := w.refs.erase (i, k) }
    else none

def World.start (zero : β) (disk : Key → β) : World β :=
  ⟨binit zero disk, [], fun _ => false, disk, fun i => i, NBUF⟩

/-- The caller does not give up the last reference to block `k` after a change that has not been
    written. -/
def Keeps (k : Key) (w : World β) : Op β → Prop
  | .brelse i k' | .bunpin i k' => k' = k → w.dirty i = true → 1 < (w.cache.buf i).refcnt
  | _ => True

instance (k : Key) (w : World β) : ∀ op, Decidable (Keeps k w op)
  | .brelse _ _ => inferInstanceAs (Decidable (_ → _ → _))
  | .bunpin _ _ => inferInstanceAs (Decidable (_ → _ → _))
  | .bget _ => .isTrue trivial
  | .load _ => .isTrue trivial
  | .store _ _ => .isTrue trivial
  | .bwrite _ => .isTrue trivial
  | .bpin _ _ => .isTrue trivial

/-! ### References -/

/-- **The invariant** of every run. -/
structure Sane (w : World β) (l : List Slot) : Prop where
  listed : Listed w.cache l
  count : ∀ i, (w.cache.buf i).refcnt = (w.refs.map Prod.fst).count i
  key : ∀ i k, (i, k) ∈ w.refs → (w.cache.buf i).key = k ∧ k.1 ≠ 0
  unique : ∀ i j, (w.cache.buf i).key = (w.cache.buf j).key → (w.cache.buf i).key.1 ≠ 0 → i = j
  order : l.Pairwise fun i j => w.stamp j < w.stamp i
  clock : ∀ i, w.stamp i < w.clock

theorem brelse_buf (c : Cache β) (i : Slot) : (brelse c i).buf = (c.setRef i (· - 1)).buf := by
  rw [brelse]
  split <;> rfl

theorem brelse_disk (c : Cache β) (i : Slot) : (brelse c i).disk = c.disk := by
  rw [brelse]
  split <;> rfl

namespace Sane

variable {w w' : World β} {l l' : List Slot} {i : Slot} {k : Key}

theorem recount (h : Sane w l) (hlisted : Listed w'.cache l')
    (hbuf : ∀ i, (w'.cache.buf i).key = (w.cache.buf i).key)
    (hcount : ∀ i, (w'.cache.buf i).refcnt = (w'.refs.map Prod.fst).count i)
    (hrefs : ∀ r ∈ w'.refs, r ∈ w.refs ∨ (w.cache.buf r.1).key = r.2 ∧ r.2.1 ≠ 0)
    (horder : l'.Pairwise fun i j => w'.stamp j < w'.stamp i)
    (hclock : ∀ i, w'.stamp i < w'.clock) : Sane w' l' where
  listed := hlisted
  count := hcount
  key i k hmem := by
    rw [hbuf i]
    exact (hrefs (i, k) hmem).elim (h.key i k) id
  unique i j := by
    rw [hbuf i, hbuf j]
    exact h.unique i j
  order := horder
  clock := hclock

theorem addRef (h : Sane w l) (hkey : (w.cache.buf i).key = k) (hk : k.1 ≠ 0)
    (hcache : w'.cache = w.cache.setRef i (· + 1)) (hrefs : w'.refs = (i, k) :: w.refs)
    (hstamp : w'.stamp = w.stamp) (hclock : w'.clock = w.clock) : Sane w' l := by
  refine h.recount (hcache ▸ ⟨h.listed.holds, h.listed.perm⟩)
    (fun j => hcache ▸ (Cache.setRef_frame j).1) (fun j => ?_) (fun r hr => ?_) (hstamp ▸ h.order)
    (hstamp ▸ hclock ▸ h.clock)
  · rw [hcache, hrefs]
    by_cases hji : j = i
    · rw [hji, Cache.setRef_refcnt_self, List.map_cons, List.count_cons_self, h.count i]
    · rw [Cache.setRef_of_ne hji, List.map_cons, List.count_cons_of_ne (Ne.symm hji), h.count j]
  · rw [hrefs] at hr
    obtain rfl | hr := List.mem_cons.mp hr
    · exact .inr ⟨hkey, hk⟩
    · exact .inl hr

theorem dropRef (h : Sane w l) (hmem : (i, k) ∈ w.refs) (hlisted : Listed w'.cache l')
    (hbuf : w'.cache.buf = (w.cache.setRef i (· - 1)).buf) (hrefs : w'.refs = w.refs.erase (i, k))
    (horder : l'.Pairwise fun i j => w'.stamp j < w'.stamp i)
    (hclock : ∀ i, w'.stamp i < w'.clock) : Sane w' l' := by
  refine h.recount hlisted (fun j => hbuf ▸ (Cache.setRef_frame j).1) (fun j => ?_)
    (fun r hr => .inl (List.mem_of_mem_erase (hrefs ▸ hr))) horder hclock
  have hcount := ((List.perm_cons_erase hmem).map Prod.fst).count_eq j
  rw [List.map_cons, ← h.count j] at hcount
  rw [hbuf, hrefs]
  by_cases hji : j = i
  · rw [hji, Cache.setRef_refcnt_self]
    rw [hji, List.count_cons_self] at hcount
    omega
  · rw [Cache.setRef_of_ne hji]
    rw [List.count_cons_of_ne (Ne.symm hji)] at hcount
    exact hcount

/-- `bget` takes a buffer that nobody refers to for block `k`. -/
theorem recycle (h : Sane w l) (hi : (w.cache.buf i).refcnt = 0)
    (hnone : ∀ j, (w.cache.buf j).key ≠ k) (hk : k.1 ≠ 0)
    (hcache : w'.cache =
      w.cache.modify i fun b => { b with key := k, valid := false, refcnt := 1 })
    (hrefs : w'.refs = (i, k) :: w.refs) (hstamp : w'.stamp = w.stamp)
    (hclock : w'.clock = w.clock) : Sane w' l := by
  have hself : w'.cache.buf i = { w.cache.buf i with key := k, valid := false, refcnt := 1 } :=
    hcache ▸ Cache.modify_self
  have hother : ∀ j, j ≠ i → w'.cache.buf j = w.cache.buf j := fun j hj =>
    hcache ▸ Cache.modify_of_ne hj
  have hcount : (w.refs.map Prod.fst).count i = 0 := (h.count i).symm.trans hi
  refine ⟨hcache ▸ ⟨h.listed.holds, h.listed.perm⟩, fun j => ?_, fun j k' hmem => ?_,
    fun a b => ?_, hstamp ▸ h.order, hstamp ▸ hclock ▸ h.clock⟩
  · rw [hrefs]
    by_cases hj : j = i
    · rw [hj, hself, List.map_cons, List.count_cons_self, hcount]
    · rw [hother j hj, List.map_cons, List.count_cons_of_ne (Ne.symm hj), h.count j]
  · rw [hrefs] at hmem
    obtain heq | hold := List.mem_cons.mp hmem
    · cases heq
      rw [hself]
      exact ⟨rfl, hk⟩
    · have hj : j ≠ i := by
        rintro rfl
        exact List.count_eq_zero.mp hcount (List.mem_map_of_mem hold)
      rw [hother j hj]
      exact h.key j k' hold
  · by_cases ha : a = i <;> by_cases hb : b = i
    · rw [ha, hb]
      exact fun _ _ => rfl
    · rw [ha, hself, hother b hb]
      exact fun hkey => absurd hkey.symm (hnone b)
    · rw [hb, hself, hother a ha]
      exact fun hkey => absurd hkey (hnone a)
    · rw [hother a ha, hother b hb]
      exact h.unique a b

/-- A step that changes data, and neither keys nor references. -/
theorem setData (h : Sane w l) (hlinks : w'.cache.links = w.cache.links)
    (hbuf : ∀ j, (w'.cache.buf j).key = (w.cache.buf j).key ∧
      (w'.cache.buf j).refcnt = (w.cache.buf j).refcnt)
    (hrefs : w'.refs = w.refs) (hstamp : w'.stamp = w.stamp) (hclock : w'.clock = w.clock) :
    Sane w' l := by
  refine h.recount ⟨hlinks ▸ h.listed.holds, h.listed.perm⟩ (fun j => (hbuf j).1) (fun j => ?_)
    (fun r hr => .inl (hrefs ▸ hr)) (hstamp ▸ h.order) (hstamp ▸ hclock ▸ h.clock)
  rw [(hbuf j).2, hrefs]
  exact h.count j

theorem order_front (h : Sane w l) (i : Slot) :
    (i :: l.erase i).Pairwise fun a b =>
      Function.update w.stamp i w.clock b < Function.update w.stamp i w.clock a := by
  have hne : ∀ j ∈ l.erase i, j ≠ i := by
    rintro j hj rfl
    exact h.listed.holds.nodup.not_mem_erase hj
  refine List.pairwise_cons.mpr ⟨fun j hj => ?_, ?_⟩
  · rw [Function.update_self, Function.update_of_ne (hne j hj)]
    exact h.clock j
  · refine (h.order.sublist List.erase_sublist).imp_of_mem fun {a b} ha hb hlt => ?_
    rw [Function.update_of_ne (hne a ha), Function.update_of_ne (hne b hb)]
    exact hlt

/-- **Step lemma**. -/
theorem step (h : Sane w l) {op : Op β} (hstep : w.step op = some w') : ∃ l', Sane w' l' := by
  cases op with
  | bget k =>
    rw [World.step, Option.ite_none_right_eq_some] at hstep
    obtain ⟨hk, hstep⟩ := hstep
    obtain ⟨⟨i, c⟩, hget, rfl⟩ := Option.map_eq_some_iff.mp hstep
    cases h.listed.gets hget with
    | hit hi => exact ⟨l, h.addRef hi hk rfl rfl rfl rfl⟩
    | miss hnone hi =>
      have hrefcnt := List.find?_some hi
      exact ⟨l, h.recycle (of_decide_eq_true hrefcnt) hnone hk rfl rfl rfl rfl⟩
  | load i =>
    rw [World.step, Option.ite_none_right_eq_some] at hstep
    obtain ⟨hi, hstep⟩ := hstep
    cases hstep
    exact ⟨l, h.setData (load_frame _ i).1 (load_frame _ i).2 rfl rfl rfl⟩
  | store i v =>
    rw [World.step, Option.ite_none_right_eq_some] at hstep
    obtain ⟨hi, hstep⟩ := hstep
    cases hstep
    have hframe := Cache.modify_frame (c := w.cache) (i := i) (f := fun b => { b with data := v })
      rfl rfl
    exact ⟨l, h.setData rfl hframe rfl rfl rfl⟩
  | bwrite i =>
    rw [World.step, Option.ite_none_right_eq_some] at hstep
    obtain ⟨hi, hstep⟩ := hstep
    cases hstep
    exact ⟨l, h.setData rfl (fun _ => ⟨rfl, rfl⟩) rfl rfl rfl⟩
  | brelse i k =>
    rw [World.step, Option.ite_none_right_eq_some] at hstep
    obtain ⟨hi, hstep⟩ := hstep
    have hlisted := h.listed.brelse i
    by_cases hlast : (w.cache.buf i).refcnt - 1 = 0
    · rw [if_pos hlast] at hstep hlisted
      cases hstep
      refine ⟨_, h.dropRef hi hlisted (brelse_buf _ i) rfl (h.order_front i) fun j => ?_⟩
      dsimp only
      by_cases hj : j = i
      · rw [hj, Function.update_self]
        exact Nat.lt_succ_self _
      · rw [Function.update_of_ne hj]
        exact (h.clock j).trans (Nat.lt_succ_self _)
    · rw [if_neg hlast] at hstep hlisted
      cases hstep
      exact ⟨l, h.dropRef hi hlisted (brelse_buf _ i) rfl h.order h.clock⟩
  | bpin i k =>
    rw [World.step, Option.ite_none_right_eq_some] at hstep
    obtain ⟨hi, hstep⟩ := hstep
    cases hstep
    exact ⟨l, h.addRef (h.key i k hi).1 (h.key i k hi).2 rfl rfl rfl rfl⟩
  | bunpin i k =>
    rw [World.step, Option.ite_none_right_eq_some] at hstep
    obtain ⟨hi, hstep⟩ := hstep
    cases hstep
    exact ⟨l, h.dropRef hi ⟨h.listed.holds, h.listed.perm⟩ rfl rfl h.order h.clock⟩

/-- The buffers of two references to one block are the same. -/
theorem eq_of_key (h : Sane w l) (hi : i ∈ w.refs.map Prod.fst) {j : Slot}
    (hkey : (w.cache.buf j).key = (w.cache.buf i).key) : j = i := by
  obtain ⟨⟨i', k⟩, hmem, rfl⟩ := List.mem_map.mp hi
  have hk := h.key i' k hmem
  refine h.unique j i' hkey ?_
  rw [hkey, hk.1]
  exact hk.2

/-- The unused buffer nearest to the end of the list was released before all other unused ones. -/
theorem oldest (h : Sane w l)
    (hi : l.reverse.find? (fun i => (w.cache.buf i).refcnt = 0) = some i) {j : Slot}
    (hj : (w.cache.buf j).refcnt = 0) : w.stamp i ≤ w.stamp j := by
  obtain ⟨-, as, bs, hsplit, has⟩ := List.find?_eq_some_iff_append.mp hi
  have horder : l.reverse.Pairwise fun a b => w.stamp a < w.stamp b :=
    List.pairwise_reverse.mpr h.order
  have hmem : j ∈ l.reverse := List.mem_reverse.mpr (h.listed.mem j)
  rw [hsplit] at hmem horder
  obtain hmem | hmem := List.mem_append.mp hmem
  · have hused := has j hmem
    simp [hj] at hused
  · obtain rfl | hmem := List.mem_cons.mp hmem
    · exact le_rfl
    · exact (List.rel_of_pairwise_cons (List.pairwise_append.mp horder).2.1 hmem).le

end Sane

theorem start_sane (zero : β) (disk : Key → β) :
    Sane (World.start zero disk) (List.finRange NBUF).reverse where
  listed := listed_binit zero disk
  count _ := rfl
  key := nofun
  unique _ _ _ hdev := absurd rfl hdev
  order := List.pairwise_reverse.mpr (List.pairwise_lt_finRange NBUF)
  clock i := i.isLt

theorem exec_sane {zero : β} {disk : Key → β} {ops : List (Op β)} {w : World β}
    (h : exec World.step (World.start zero disk) ops = some w) : ∃ l, Sane w l :=
  exec_invariant (I := fun w => ∃ l, Sane w l) (fun _ _ _ ⟨_, hs⟩ hstep => hs.step hstep)
    ⟨_, start_sane zero disk⟩ h

/-! ### Contents -/

/-- **The invariant** of a block whose changes are kept. -/
structure Fresh (k : Key) (w : World β) : Prop where
  data : ∀ i, (w.cache.buf i).key = k → (w.cache.buf i).valid = true →
    (w.cache.buf i).data = w.contents k
  disk : (∀ i, (w.cache.buf i).key = k → (w.cache.buf i).valid = true → w.dirty i = false) →
    w.cache.disk k = w.contents k
  dirty : ∀ i, (w.cache.buf i).key = k → w.dirty i = true → (w.cache.buf i).refcnt ≠ 0

namespace Fresh

variable {w w' : World β} {l : List Slot} {i : Slot} {k k' : Key}

theorem recount (h : Fresh k w)
    (hbuf : ∀ i, (w'.cache.buf i).key = (w.cache.buf i).key ∧
      (w'.cache.buf i).valid = (w.cache.buf i).valid ∧
      (w'.cache.buf i).data = (w.cache.buf i).data)
    (hdisk : w'.cache.disk = w.cache.disk) (hcontents : w'.contents = w.contents)
    (hdirty : ∀ i, (w.cache.buf i).valid = true → w'.dirty i = w.dirty i)
    (hdrop : ∀ i, (w.cache.buf i).key = k → w'.dirty i = true → (w'.cache.buf i).refcnt ≠ 0) :
    Fresh k w' where
  data i := by
    rw [(hbuf i).1, (hbuf i).2.1, (hbuf i).2.2, hcontents]
    exact h.data i
  disk hk := by
    rw [hdisk, hcontents]
    refine h.disk fun i hi hv => ?_
    rw [← hdirty i hv]
    exact hk i ((hbuf i).1.trans hi) ((hbuf i).2.1.trans hv)
  dirty i hi := hdrop i ((hbuf i).1 ▸ hi)

theorem addRef (h : Fresh k w) (hcache : w'.cache = w.cache.setRef i (· + 1))
    (hcontents : w'.contents = w.contents)
    (hdirty : ∀ j, (w.cache.buf j).valid = true → w'.dirty j = w.dirty j)
    (hle : ∀ j, w'.dirty j = true → w.dirty j = true) : Fresh k w' := by
  refine h.recount (fun j => hcache ▸ Cache.setRef_frame j) (hcache ▸ rfl) hcontents hdirty
    fun j hj hd => ?_
  rw [hcache]
  by_cases hji : j = i
  · rw [hji, Cache.setRef_refcnt_self]
    exact Nat.succ_ne_zero _
  · rw [Cache.setRef_of_ne hji]
    exact h.dirty j hj (hle j hd)

/-- A reference is given up that is not the last one to a changed block. -/
theorem dropRef (h : Fresh k w) (hkey : (w.cache.buf i).key = k')
    (hkeeps : k' = k → w.dirty i = true → 1 < (w.cache.buf i).refcnt)
    (hbuf : w'.cache.buf = (w.cache.setRef i (· - 1)).buf)
    (hdisk : w'.cache.disk = w.cache.disk) (hdirty : w'.dirty = w.dirty)
    (hcontents : w'.contents = w.contents) : Fresh k w' := by
  refine h.recount (fun j => hbuf ▸ Cache.setRef_frame j) hdisk hcontents (fun j _ => hdirty ▸ rfl)
    fun j hj hd => ?_
  rw [hdirty] at hd
  rw [hbuf]
  by_cases hji : j = i
  · subst hji
    have hlt := hkeeps (hkey.symm.trans hj) hd
    rw [Cache.setRef_refcnt_self]
    omega
  · rw [Cache.setRef_of_ne hji]
    exact h.dirty j hj hd

/-- A buffer that nobody refers to is taken for another block. -/
theorem recycle (h : Fresh k w) (hi : (w.cache.buf i).refcnt = 0)
    (hcache : w'.cache =
      w.cache.modify i fun b => { b with key := k', valid := false, refcnt := 1 })
    (hdirty : ∀ j, w'.dirty j = (w.dirty j && (w'.cache.buf j).valid))
    (hcontents : w'.contents = w.contents) : Fresh k w' := by
  have hself : w'.cache.buf i = { w.cache.buf i with key := k', valid := false, refcnt := 1 } :=
    hcache ▸ Cache.modify_self
  have hother : ∀ j, j ≠ i → w'.cache.buf j = w.cache.buf j := fun j hj =>
    hcache ▸ Cache.modify_of_ne hj
  refine ⟨fun j => ?_, fun hk => ?_, fun j => ?_⟩
  · by_cases hj : j = i
    · rw [hj, hself]
      nofun
    · rw [hother j hj, hcontents]
      exact h.data j
  · -- if the buffer held block `k`, its last reference was not given up after a change
    rw [hcontents, hcache]
    refine h.disk fun j hkey hvalid => ?_
    by_cases hj : j = i
    · by_contra hd
      refine h.dirty j hkey (Bool.not_eq_false _ ▸ hd) ?_
      rw [hj]
      exact hi
    · have hclean := hk j (by rw [hother j hj]; exact hkey) (by rw [hother j hj]; exact hvalid)
      rwa [hdirty, hother j hj, hvalid, Bool.and_true] at hclean
  · by_cases hj : j = i
    · rw [hj, hself]
      exact fun _ _ => Nat.one_ne_zero
    · rw [hother j hj]
      intro hkey hd
      rw [hdirty, Bool.and_eq_true] at hd
      exact h.dirty j hkey hd.1

theorem disk_of_invalid (h : Fresh k w) (hs : Sane w l) (hi : i ∈ w.refs.map Prod.fst)
    (hkey : (w.cache.buf i).key = k) (hvalid : (w.cache.buf i).valid = false) :
    w.cache.disk k = w.contents k := by
  refine h.disk fun j hj hv => ?_
  rw [hs.eq_of_key hi (hj.trans hkey.symm), hvalid] at hv
  cases hv

theorem load (h : Fresh k w) (hs : Sane w l) (hi : i ∈ w.refs.map Prod.fst) :
    Fresh k { w with cache := Bcache.load w.cache i } := by
  rw [Bcache.load]
  split
  · exact h
  · next hvalid =>
    have hvalid := Bool.eq_false_iff.mpr hvalid
    refine ⟨fun j => ?_, fun hk => h.disk fun j hkey hv => ?_, fun j => ?_⟩
    · dsimp only
      by_cases hji : j = i
      · rw [hji, Cache.modify_self]
        rintro rfl -
        exact h.disk_of_invalid hs hi rfl hvalid
      · rw [Cache.modify_of_ne hji]
        exact h.data j
    · by_cases hji : j = i
      · rw [hji, hvalid] at hv
        cases hv
      · refine hk j ?_ ?_
        · rwa [Cache.modify_of_ne hji]
        · rwa [Cache.modify_of_ne hji]
    · dsimp only
      rw [(Cache.modify_frame rfl rfl j).1, (Cache.modify_frame rfl rfl j).2]
      exact h.dirty j

theorem store (h : Fresh k w) (hs : Sane w l) (hi : w.uses i) (v : β) :
    Fresh k { w with
      cache := w.cache.store i v
      dirty := Function.update w.dirty i true
      contents := Function.update w.contents (w.cache.buf i).key v } := by
  have hself : (w.cache.store i v).buf i = { w.cache.buf i with data := v } := Cache.modify_self
  have hother : ∀ j, j ≠ i → (w.cache.store i v).buf j = w.cache.buf j := fun j hj =>
    Cache.modify_of_ne hj
  refine ⟨fun j => ?_, fun hk => ?_, fun j => ?_⟩ <;> dsimp only at *
  · by_cases hji : j = i
    · rw [hji, hself]
      rintro rfl -
      rw [Function.update_self]
    · rw [hother j hji]
      rintro rfl hv
      rw [Function.update_of_ne fun hkey => hji (hs.eq_of_key hi.1 hkey)]
      exact h.data j rfl hv
  · have hne : (w.cache.buf i).key ≠ k := by
      intro hkey
      have hclean := hk i (by rw [hself]; exact hkey) (by rw [hself]; exact hi.2)
      rw [Function.update_self] at hclean
      cases hclean
    rw [Function.update_of_ne hne.symm]
    refine h.disk fun j hkey hv => ?_
    have hji : j ≠ i := by
      rintro rfl
      exact hne hkey
    have hclean := hk j (by rw [hother j hji]; exact hkey) (by rw [hother j hji]; exact hv)
    rwa [Function.update_of_ne hji] at hclean
  · by_cases hji : j = i
    · rw [hji, hself]
      intro _ _
      rw [hs.count i]
      exact fun hzero => List.count_eq_zero.mp hzero hi.1
    · rw [hother j hji, Function.update_of_ne hji]
      exact h.dirty j

theorem write (h : Fresh k w) (hi : w.uses i) :
    Fresh k { w with
      cache := bwrite w.cache i
      dirty := Function.update w.dirty i false } := by
  refine ⟨h.data, fun hk => ?_, fun j hj hd => ?_⟩
  · show Function.update w.cache.disk (w.cache.buf i).key (w.cache.buf i).data k = w.contents k
    by_cases hki : (w.cache.buf i).key = k
    · rw [hki, Function.update_self]
      exact h.data i hki hi.2
    · rw [Function.update_of_ne (Ne.symm hki)]
      refine h.disk fun j hkey hv => ?_
      have hji : j ≠ i := by
        rintro rfl
        exact hki hkey
      have hclean : Function.update w.dirty i false j = false := hk j hkey hv
      rwa [Function.update_of_ne hji] at hclean
  · dsimp only at hd
    have hji : j ≠ i := by
      rintro rfl
      rw [Function.update_self] at hd
      cases hd
    rw [Function.update_of_ne hji] at hd
    exact h.dirty j hj hd

/-- **Step lemma**. -/
theorem step (h : Fresh k w) (hs : Sane w l) {op : Op β} (hkeeps : Keeps k w op)
    (hstep : w.step op = some w') : Fresh k w' := by
  cases op with
  | bget k' =>
    rw [World.step, Option.ite_none_right_eq_some] at hstep
    obtain ⟨hk, hstep⟩ := hstep
    obtain ⟨⟨i, c⟩, hget, rfl⟩ := Option.map_eq_some_iff.mp hstep
    cases hs.listed.gets hget with
    | hit hi =>
      refine h.addRef rfl rfl (fun j hv => ?_) fun j hd => ?_
      · dsimp only
        rw [(Cache.setRef_frame j).2.1, hv, Bool.and_true]
      · exact (Bool.and_eq_true _ _ ▸ hd).1
    | miss hnone hi =>
      have hrefcnt := List.find?_some hi
      exact h.recycle (of_decide_eq_true hrefcnt) rfl (fun _ => rfl) rfl
  | load i =>
    rw [World.step, Option.ite_none_right_eq_some] at hstep
    obtain ⟨hi, hstep⟩ := hstep
    cases hstep
    exact h.load hs hi
  | store i v =>
    rw [World.step, Option.ite_none_right_eq_some] at hstep
    obtain ⟨hi, hstep⟩ := hstep
    cases hstep
    exact h.store hs hi v
  | bwrite i =>
    rw [World.step, Option.ite_none_right_eq_some] at hstep
    obtain ⟨hi, hstep⟩ := hstep
    cases hstep
    exact h.write hi
  | brelse i k' =>
    rw [World.step, Option.ite_none_right_eq_some] at hstep
    obtain ⟨hi, hstep⟩ := hstep
    by_cases hlast : (w.cache.buf i).refcnt - 1 = 0
    · rw [if_pos hlast] at hstep
      cases hstep
      exact h.dropRef (hs.key i k' hi).1 hkeeps (brelse_buf _ i) (brelse_disk _ i) rfl rfl
    · rw [if_neg hlast] at hstep
      cases hstep
      exact h.dropRef (hs.key i k' hi).1 hkeeps (brelse_buf _ i) (brelse_disk _ i) rfl rfl
  | bpin i k' =>
    rw [World.step, Option.ite_none_right_eq_some] at hstep
    obtain ⟨hi, hstep⟩ := hstep
    cases hstep
    exact h.addRef rfl rfl (fun _ _ => rfl) fun _ => id
  | bunpin i k' =>
    rw [World.step, Option.ite_none_right_eq_some] at hstep
    obtain ⟨hi, hstep⟩ := hstep
    cases hstep
    exact h.dropRef (hs.key i k' hi).1 hkeeps rfl rfl rfl rfl

theorem load_data (h : Fresh k w) (hs : Sane w l) (hmem : (i, k) ∈ w.refs) :
    ((Bcache.load w.cache i).buf i).data = w.contents k := by
  have hkey := (hs.key i k hmem).1
  rw [Bcache.load]
  split
  · next hvalid => exact h.data i hkey hvalid
  · next hvalid =>
    rw [Cache.modify_self, hkey]
    exact h.disk_of_invalid hs (List.mem_map_of_mem hmem) hkey (Bool.eq_false_iff.mpr hvalid)

end Fresh

theorem start_fresh (zero : β) (disk : Key → β) (k : Key) : Fresh k (World.start zero disk) where
  data := nofun
  disk _ := rfl
  dirty := nofun

def first : Slot := ⟨0, by decide⟩

/-- The buffer that the next `bget` takes. -/
def second : Slot := ⟨1, by decide⟩

/-- **One copy of each block**, in every run, and it is up to date if changes are kept. A buffer
    keeps its block as long as somebody refers to it, all references to a block are to the same
    buffer, and `bget` panics only if all buffers are referred to. If no caller has given up the
    last reference to a block after a change that was not written, `bread` yields what was last
    stored for the block, whether the buffer is valid or the block has to be read. -/
theorem bcache_coherent {zero : β} {disk : Key → β} {ops : List (Op β)} {w : World β}
    (h : exec World.step (World.start zero disk) ops = some w) :
    (∀ i k, (i, k) ∈ w.refs → (w.cache.buf i).key = k ∧
      (Guarded World.step (Keeps k) (World.start zero disk) ops →
        ((load w.cache i).buf i).data = w.contents k)) ∧
      (∀ i j k, (i, k) ∈ w.refs → (j, k) ∈ w.refs → i = j) ∧
      (∀ i, (w.cache.buf i).refcnt = (w.refs.map Prod.fst).count i) ∧
      ∀ k, bget w.cache k = none ↔
        ∀ i, (w.cache.buf i).key ≠ k ∧ (w.cache.buf i).refcnt ≠ 0 := by
  obtain ⟨l, hsane⟩ := exec_sane h
  refine ⟨fun i k hmem => ⟨(hsane.key i k hmem).1, fun hkeeps => ?_⟩, fun i j k hi hj => ?_,
    hsane.count, fun k => hsane.listed.bget_eq_none⟩
  · obtain ⟨l, hs, hfresh⟩ : ∃ l, Sane w l ∧ Fresh k w :=
      exec_invariant_of_guarded (I := fun w => ∃ l, Sane w l ∧ Fresh k w)
        (fun _ _ _ ⟨_, hs, hf⟩ hok hstep =>
          (hs.step hstep).imp fun _ hs' => ⟨hs', hf.step hs hok hstep⟩)
        ⟨_, start_sane zero disk, start_fresh zero disk k⟩ hkeeps h
    exact hfresh.load_data hs hmem
  · refine hsane.eq_of_key (List.mem_map_of_mem hj) ?_
    rw [(hsane.key i k hi).1, (hsane.key j k hj).1]

/-- A block is stored to and pinned, released before it is written, and used again after another
    block. -/
def pinned : List (Op ℕ) :=
  [.bget (1, 5), .load first, .store first 7, .bpin first (1, 5), .brelse first (1, 5),
    .bget (1, 6), .load second, .brelse second (1, 6), .bget (1, 5)]

/-- The second reader finds the value that has not been written yet. -/
theorem bcache_coherent_pinned :
    ∃ w, exec World.step (World.start 0 fun _ => 3) pinned = some w ∧
      ((load w.cache first).buf first).data = 7 ∧ w.cache.disk (1, 5) = 3 := by
  have hkeeps : Guarded World.step (Keeps (1, 5)) (World.start 0 fun _ => 3) pinned := by
    decide +kernel
  have hend : (exec World.step (World.start 0 fun _ => 3) pinned).map
      (fun w => (w.refs, w.contents (1, 5), w.cache.disk (1, 5))) =
        some ([(first, (1, 5)), (first, (1, 5))], 7, 3) := by decide +kernel
  obtain ⟨w, hw, hend⟩ := Option.map_eq_some_iff.mp hend
  simp only [Prod.mk.injEq] at hend
  obtain ⟨hrefs, hcontents, hdisk⟩ := hend
  have hmem : (first, (1, 5)) ∈ w.refs := by
    rw [hrefs]
    exact List.mem_cons_self
  refine ⟨w, hw, ?_, hdisk⟩
  rw [((bcache_coherent hw).1 first (1, 5) hmem).2 hkeeps, hcontents]

/-- **The least recently used buffer is recycled**, in every run: when a block is not cached,
    `bget` takes a buffer that nobody refers to, and of these the one that `brelse` freed first.
    (`bunpin` does not move a buffer.) -/
theorem bcache_lru {zero : β} {disk : Key → β} {ops : List (Op β)} {w : World β}
    (h : exec World.step (World.start zero disk) ops = some w) {k : Key} {i : Slot} {c : Cache β}
    (hget : bget w.cache k = some (i, c)) (hmiss : ∀ j, (w.cache.buf j).key ≠ k) :
    (w.cache.buf i).refcnt = 0 ∧ ∀ j, (w.cache.buf j).refcnt = 0 → w.stamp i ≤ w.stamp j := by
  obtain ⟨l, hsane⟩ := exec_sane h
  cases hsane.listed.gets hget with
  | hit hi => exact absurd hi (hmiss i)
  | miss hnone hi =>
    have hrefcnt := List.find?_some hi
    exact ⟨of_decide_eq_true hrefcnt, fun j => hsane.oldest hi⟩

/-- Two blocks are released, the second one first, and then all other buffers are taken. -/
def crowded : List (Op ℕ) :=
  [.bget (1, 5), .bget (1, 6), .brelse second (1, 6), .brelse first (1, 5)] ++
    (List.range 28).map fun n => .bget (1, n + 7)

theorem bcache_lru_crowded :
    ∃ w c, exec World.step (World.start 0 fun _ => 3) crowded = some w ∧
      bget w.cache (1, 50) = some (second, c) ∧ (w.cache.buf first).refcnt = 0 ∧
      w.stamp second ≤ w.stamp first := by
  have hend : (exec World.step (World.start 0 fun _ => 3) crowded).map
      (fun w => ((bget w.cache (1, 50)).map Prod.fst, (w.cache.buf first).refcnt,
        decide (∀ j, (w.cache.buf j).key ≠ (1, 50)))) = some (some second, 0, true) := by
    decide +kernel
  obtain ⟨w, hw, hend⟩ := Option.map_eq_some_iff.mp hend
  simp only [Prod.mk.injEq] at hend
  obtain ⟨hget, hfirst, hmiss⟩ := hend
  obtain ⟨⟨i, c⟩, hget, rfl⟩ := Option.map_eq_some_iff.mp hget
  exact ⟨w, c, hw, hget, hfirst, (bcache_lru hw hget (of_decide_eq_true hmiss)).2 first hfirst⟩

end MiniOs.Xv6.Bcache
