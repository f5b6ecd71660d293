import MiniOs.Lib.RedoLog
import MiniOs.Xv6.Log

/-!
# Commits

What the buffers and the disk hold while operations and commits run. A block that an operation
has logged is not on the disk, so the buffer cache must not drop it before it has been
installed, and no block may reach its home before the whole commit is in the log. What is
committed are the blocks in the log, as they are when the last operation ends. A block that has
been changed and not logged may look different to readers, until its buffer is dropped.
-/

namespace MiniOs.Xv6.Logs

open Trace

variable {b c tail : ℕ} {p : Point}

def Disk.entries {β : Type*} (k : Disk β) : List (ℕ × β) := k.head.mapIdx fun i b => (b, k.log i)

/-- The blocks, with those of the log in place of what is at home. -/
def Disk.replayed {β : Type*} (k : Disk β) : ℕ → β := RedoLog.replay k.entries k.home

/-- The buffer that the thread has changed and not logged. -/
def Point.dirty : Point → Option ℕ
  | .logging b _ | .logPanic b => some b
  | _ => none

/-- What holds of one buffer: `home` is what the disk has, `pinned` says whether the block is in
    the log and not installed, `dirty` which threads are about to log a change of it, and
    `spoilt` whether there may have been a change that was not logged. -/
structure BufOk {τ β : Type*} (x : Buf τ β) (home : β) (pinned : Bool) (dirty : τ → Prop)
    (spoilt : Prop) : Prop where
  ref : x.refcnt = x.owner.isSome.toNat + pinned.toNat
  cached : x.refcnt ≠ 0 → x.data.isSome = true
  clean : ¬ spoilt → pinned = false → (∀ t, ¬ dirty t) → x.data.getD home = home
  owned : ∀ t, dirty t → x.owner = some t

namespace BufOk

variable {τ β : Type*} {x : Buf τ β} {home : β} {pinned : Bool} {dirty dirty' : τ → Prop}
  {spoilt : Prop} {t : τ}

/-- A buffer that nobody refers to can be used for another block. -/
theorem recycle (h : BufOk x home pinned dirty spoilt) (href : x.refcnt = 0) :
    BufOk { x with data := none } home pinned dirty spoilt :=
  ⟨h.ref, fun hne => absurd href hne, fun _ _ _ => rfl, h.owned⟩

theorem bread (h : BufOk x home pinned dirty spoilt) (hown : x.owner = none) :
    BufOk ⟨some (x.data.getD home), x.refcnt + 1, some t⟩ home pinned dirty spoilt where
  ref := by
    have href := h.ref
    rw [hown] at href
    simp only [Option.isSome_some, Bool.toNat_true, Option.isSome_none, Bool.toNat_false] at href ⊢
    omega
  cached _ := rfl
  clean := h.clean
  owned v hv := by
    have hv := h.owned v hv
    rw [hown] at hv
    cases hv

theorem brelse (h : BufOk x home pinned dirty spoilt) (hown : x.owner = some t) (ht : ¬ dirty t) :
    BufOk { x with refcnt := x.refcnt - 1, owner := none } home pinned dirty spoilt where
  ref := by
    have href := h.ref
    rw [hown] at href
    simp only [Option.isSome_some, Bool.toNat_true, Option.isSome_none, Bool.toNat_false] at href ⊢
    omega
  cached hne := h.cached fun h0 => hne (by rw [h0])
  clean := h.clean
  owned v hv := by
    have hvt := h.owned v hv
    rw [hown] at hvt
    exact absurd (Option.some.inj hvt ▸ hv) ht

theorem change (h : BufOk x home pinned dirty spoilt) {v : β} (hown : x.owner = some t)
    (ht : ∀ u, dirty' u ↔ u = t) : BufOk { x with data := some v } home pinned dirty' spoilt where
  ref := h.ref
  cached _ := rfl
  clean _ _ hd := absurd ((ht t).mpr rfl) (hd t)
  owned u hu := by
    rw [(ht u).mp hu]
    exact hown

/-- The owner of a buffer changes it, and does not log it. -/
theorem scribble (h : BufOk x home pinned dirty spoilt) {v : β} (hspoilt : spoilt) :
    BufOk { x with data := some v } home pinned dirty spoilt where
  ref := h.ref
  cached _ := rfl
  clean hclean := absurd hspoilt hclean
  owned := h.owned

theorem absorb (h : BufOk x home true dirty spoilt) (hsub : ∀ u, dirty' u → dirty u) :
    BufOk x home true dirty' spoilt :=
  ⟨h.ref, h.cached, fun _ => nofun, fun u hu => h.owned u (hsub u hu)⟩

theorem pin (h : BufOk x home false dirty spoilt) (hown : x.owner = some t)
    (hsub : ∀ u, dirty' u → dirty u) :
    BufOk { x with refcnt := x.refcnt + 1 } home true dirty' spoilt where
  ref := by
    have href := h.ref
    simp only [Bool.toNat_true, Bool.toNat_false] at href ⊢
    omega
  cached _ := by
    refine h.cached ?_
    rw [h.ref, hown]
    exact Nat.succ_ne_zero _
  clean _ := nofun
  owned u hu := h.owned u (hsub u hu)

theorem install (h : BufOk x home true dirty spoilt) {v : β} :
    BufOk { x with data := some v, refcnt := x.refcnt - 1 } v false dirty spoilt where
  ref := by
    have href := h.ref
    simp only [Bool.toNat_true, Bool.toNat_false] at href ⊢
    omega
  cached _ := rfl
  clean _ _ _ := rfl
  owned := h.owned

/-- `bread` of a buffer by the committer, who releases it at once. -/
theorem load (h : BufOk x home pinned dirty spoilt) :
    BufOk { x with data := some (x.data.getD home) } home pinned dirty spoilt :=
  ⟨h.ref, fun _ => rfl, h.clean, h.owned⟩

end BufOk

section Buffers

variable {τ β : Type*}

/-- **The invariant** of the buffers; `k` blocks of the log have been installed, and only the
    blocks in `S` may have been changed and not logged. -/
structure Buffers (S : ℕ → Prop) (d : Log τ β) (pt : τ → Point) (k : ℕ) : Prop where
  ok : ∀ b, BufOk (d.buf b) (d.disk.home b) (decide (b ∈ d.lh.drop k))
    (fun t => (pt t).dirty = some b) (S b)
  installed : ∀ t tail, pt t = .install tail → tail = k
  none : (∀ t tail, pt t ≠ .install tail) → k = 0

variable {S : ℕ → Prop} {d d' : Log τ β} {pt : τ → Point} {k k' : ℕ} {t : τ} {i : Input β}
  {q : Point}

theorem Log.setBuf_self {f : Buf τ β → Buf τ β} : (d.setBuf b f).buf b = f (d.buf b) :=
  Function.update_self ..

theorem Log.setBuf_of_ne {f : Buf τ β → Buf τ β} (hc : c ≠ b) :
    (d.setBuf b f).buf c = d.buf c :=
  Function.update_of_ne hc ..

theorem logBlock_buf_self :
    (logBlock d tail b).buf b = { d.buf b with data := some (d.view b) } :=
  Function.update_self ..

theorem logBlock_buf_of_ne (hc : c ≠ b) : (logBlock d tail b).buf c = d.buf c :=
  Function.update_of_ne hc ..

theorem installBlock_buf_self : (installBlock d tail b).buf b =
    { d.buf b with data := some (d.disk.log tail), refcnt := (d.buf b).refcnt - 1 } :=
  Function.update_self ..

theorem installBlock_buf_of_ne (hc : c ≠ b) :
    (installBlock d tail b).buf c = d.buf c :=
  Function.update_of_ne hc ..

theorem installBlock_home_self :
    (installBlock d tail b).disk.home b = d.disk.log tail :=
  Function.update_self ..

theorem installBlock_home_of_ne (hc : c ≠ b) :
    (installBlock d tail b).disk.home c = d.disk.home c :=
  Function.update_of_ne hc ..

theorem append_buf_self :
    (append d b).buf b = { d.buf b with refcnt := (d.buf b).refcnt + 1 } :=
  Function.update_self ..

theorem append_buf_of_ne (hc : c ≠ b) : (append d b).buf c = d.buf c :=
  Function.update_of_ne hc ..

/-- The blocks that are still to be installed, from `tail` on. -/
theorem drop_eq_cons {α : Type*} {l : List α} {a : α} (h : l[tail]? = some a) :
    l.drop tail = a :: l.drop (tail + 1) := by
  obtain ⟨hlt, hget⟩ := List.getElem?_eq_some_iff.mp h
  rw [List.drop_eq_getElem_cons hlt, hget]

theorem Point.ops_of_dirty (h : p.dirty = some b) : p.ops = 1 := by
  cases p <;> first | rfl | cases h

theorem Point.dirty_of_calls (h : p.calls = true) : p.dirty = none := by
  cases p <;> first | rfl | cases h

theorem dirty_update [DecidableEq τ] (hq : q.dirty = some c ↔ (pt t).dirty = some c) :
    (fun v => (Function.update pt t q v).dirty = some c) = fun v => (pt v).dirty = some c := by
  ext v
  by_cases hv : v = t
  · rw [hv, Function.update_self]
    exact hq
  · rw [Function.update_of_ne hv]

theorem dirty_of_update [DecidableEq τ] {u : τ} (hq : q.dirty = none)
    (hu : (Function.update pt t q u).dirty = some c) : (pt u).dirty = some c := by
  by_cases hut : u = t
  · rw [hut, Function.update_self, hq] at hu
    cases hu
  · rw [Function.update_of_ne hut] at hu
    exact hu

namespace Buffers

theorem setBuf (h : Buffers S d pt k) (b : ℕ) {f : Buf τ β → Buf τ β}
    (hok : BufOk (f (d.buf b)) (d.disk.home b) (decide (b ∈ d.lh.drop k))
      (fun v => (pt v).dirty = some b) (S b)) : Buffers S (d.setBuf b f) pt k := by
  refine ⟨fun c => ?_, h.installed, h.none⟩
  by_cases hc : c = b
  · rw [hc, Log.setBuf_self]
    exact hok
  · rw [Log.setBuf_of_ne hc]
    exact h.ok c

theorem eq_zero [Fintype τ] (h : Buffers S d pt k) (hcounts : Counts d pt)
    (hc : d.committing = false) : k = 0 := by
  refine h.none fun v tail hv => ?_
  have hcommits := hcounts.committing_of (t := v) (by rw [hv]; rfl)
  exact absurd (hc.symm.trans hcommits) nofun

theorem eq_zero_of_commits [Fintype τ] (h : Buffers S d pt k) (hcounts : Counts d pt)
    (ht : (pt t).commits = true) (hp : ∀ tail, pt t ≠ .install tail) : k = 0 := by
  refine h.none fun v tail hv => hp tail ?_
  rw [hcounts.one t v ht (by rw [hv]; rfl)]
  exact hv

variable [DecidableEq τ]

theorem install_update [Fintype τ] (hcounts : Counts d pt) (ht : (pt t).commits = true) {v : τ}
    (hv : Function.update pt t q v = .install tail) : q = .install tail := by
  by_cases hvt : v = t
  · rw [hvt, Function.update_self] at hv
    exact hv
  · rw [Function.update_of_ne hvt] at hv
    exact absurd (hcounts.one v t (by rw [hv]; rfl) ht) hvt

theorem move (h : Buffers S d pt k) (b : ℕ) (hbuf : ∀ c, c ≠ b → d'.buf c = d.buf c)
    (hhome : ∀ c, c ≠ b → d'.disk.home c = d.disk.home c)
    (hlh : ∀ c, c ≠ b → (c ∈ d'.lh.drop k' ↔ c ∈ d.lh.drop k))
    (hdirty : ∀ c, c ≠ b → (q.dirty = some c ↔ (pt t).dirty = some c))
    (hok : BufOk (d'.buf b) (d'.disk.home b) (decide (b ∈ d'.lh.drop k'))
      (fun v => (Function.update pt t q v).dirty = some b) (S b))
    (hinstalled : ∀ v tail, Function.update pt t q v = .install tail → tail = k')
    (hnone : (∀ v tail, Function.update pt t q v ≠ .install tail) → k' = 0) :
    Buffers S d' (Function.update pt t q) k' := by
  refine ⟨fun c => ?_, hinstalled, hnone⟩
  by_cases hc : c = b
  · rw [hc]
    exact hok
  · rw [hbuf c hc, hhome c hc, dirty_update (hdirty c hc), decide_eq_decide.mpr (hlh c hc)]
    exact h.ok c

/-- The thread does not begin, go on with or end the installation. -/
theorem tails (h : Buffers S d pt k) (hp : ∀ tail, pt t ≠ .install tail)
    (hq : ∀ tail, q ≠ .install tail) :
    (∀ v tail, Function.update pt t q v = .install tail → tail = k) ∧
      ((∀ v tail, Function.update pt t q v ≠ .install tail) → k = 0) := by
  refine ⟨fun v tail hv => ?_, fun hall => h.none fun v tail hv => ?_⟩
  · by_cases hvt : v = t
    · rw [hvt, Function.update_self] at hv
      exact absurd hv (hq tail)
    · rw [Function.update_of_ne hvt] at hv
      exact h.installed v tail hv
  · by_cases hvt : v = t
    · exact hp tail (hvt ▸ hv)
    · refine hall v tail ?_
      rw [Function.update_of_ne hvt, hv]

/-- A step that leaves the buffers, the list and the blocks at home alone. -/
theorem go (h : Buffers S d pt k) (hbuf : d'.buf = d.buf) (hhome : d'.disk.home = d.disk.home)
    (hlh : d'.lh = d.lh) (hdirty : q.dirty = (pt t).dirty) (hp : ∀ tail, pt t ≠ .install tail)
    (hq : ∀ tail, q ≠ .install tail) : Buffers S d' (Function.update pt t q) k := by
  refine ⟨fun c => ?_, (h.tails hp hq).1, (h.tails hp hq).2⟩
  rw [hbuf, hhome, hlh, dirty_update (by rw [hdirty])]
  exact h.ok c

/-- **Step lemma**, without `log.lock`. -/
theorem frees [Fintype τ] (h : Buffers S d pt k) (hcounts : Counts d pt)
    (hS : ∀ b v, i = .scribble b v → S b) (hfree : Frees t i d (pt t) d' q) :
    ∃ k', Buffers S d' (Function.update pt t q) k' := by
  generalize hpt : pt t = p at hfree
  -- the points of the other threads and the blocks but `b` stay as they are
  have hgo : d'.buf = d.buf → d'.disk.home = d.disk.home → d'.lh = d.lh → q.dirty = p.dirty →
      (∀ tail, p ≠ .install tail) → (∀ tail, q ≠ .install tail) →
      ∃ k', Buffers S d' (Function.update pt t q) k' := fun hbuf hhome hlh hdirty hp hq =>
    ⟨k, h.go hbuf hhome hlh (by rw [hpt, hdirty]) (by rw [hpt]; exact hp) hq⟩
  have hsame : Function.update pt t p = pt := by rw [← hpt, Function.update_eq_self]
  cases hfree with
  | recycle href =>
    rw [hsame]
    exact ⟨k, h.setBuf _ ((h.ok _).recycle href)⟩
  | bread hp hb =>
    rw [hsame]
    exact ⟨k, h.setBuf _ ((h.ok _).bread hb)⟩
  | brelse hp hb =>
    rw [hsame]
    refine ⟨k, h.setBuf _ ((h.ok _).brelse hb ?_)⟩
    rw [hpt, Point.dirty_of_calls hp]
    nofun
  | @update b v ws hi hb =>
    have htails := h.tails (t := t) (q := .logging b ws) (by rw [hpt]; nofun) nofun
    refine ⟨k, h.move b (fun c hc => Log.setBuf_of_ne hc) (fun _ _ => rfl) (fun _ _ => .rfl)
      (fun c hc => ?_) ?_ htails.1 htails.2⟩
    · rw [hpt]
      exact iff_of_false (fun hbc => hc (Option.some.inj hbc).symm) nofun
    · rw [change, Log.setBuf_self]
      refine (h.ok b).change hb fun u => ?_
      by_cases hu : u = t
      · rw [hu, Function.update_self]
        exact iff_of_true rfl rfl
      · rw [Function.update_of_ne hu]
        refine iff_of_false (fun hdirty => hu ?_) hu
        exact Option.some.inj (((h.ok b).owned u hdirty).symm.trans hb)
  | @scribble b v ws hi hb =>
    rw [hsame]
    exact ⟨k, h.setBuf b ((h.ok b).scribble (hS b v hi))⟩
  | @log tail b htail hb =>
    have htails := h.tails (t := t) (q := .writeLog (tail + 1)) (by rw [hpt]; nofun) nofun
    have hdirty : ∀ c, (Point.writeLog (tail + 1)).dirty = some c ↔ (pt t).dirty = some c := by
      rw [hpt]
      exact fun _ => .rfl
    refine ⟨k, h.move b (fun c hc => logBlock_buf_of_ne hc) (fun _ _ => rfl) (fun _ _ => .rfl)
      (fun c _ => hdirty c) ?_ htails.1 htails.2⟩
    rw [logBlock_buf_self, dirty_update (hdirty b)]
    exact (h.ok b).load
  | head =>
    have hct : (pt t).commits = true := by rw [hpt]; rfl
    have hk : k = 0 := h.eq_zero_of_commits hcounts hct (by rw [hpt]; nofun)
    subst hk
    refine ⟨0, fun c => ?_, fun v tail hv => ?_, fun _ => rfl⟩
    · rw [dirty_update (by rw [hpt]; exact .rfl)]
      exact h.ok c
    · exact (Point.install.inj (install_update hcounts hct hv)).symm
  | @install tail b htail hb =>
    have hct : (pt t).commits = true := by rw [hpt]; rfl
    have hk : tail = k := h.installed t tail hpt
    subst hk
    have hdirty : ∀ c, (Point.install (tail + 1)).dirty = some c ↔ (pt t).dirty = some c := by
      rw [hpt]
      exact fun _ => .rfl
    -- the block at the front of the rest of the list, which has no other copy of it
    have hdrop := drop_eq_cons htail
    have hnot : b ∉ d.lh.drop (tail + 1) := by
      have hnodup := hcounts.nodup.sublist (List.drop_sublist tail d.lh)
      rw [hdrop] at hnodup
      exact (List.nodup_cons.mp hnodup).1
    refine ⟨tail + 1, h.move b (fun c hc => installBlock_buf_of_ne hc)
      (fun c hc => installBlock_home_of_ne hc) (fun c hc => ?_) (fun c _ => hdirty c) ?_
      (fun v tail' hv => ?_) fun hall => absurd (Function.update_self ..) (hall t (tail + 1))⟩
    · rw [hdrop, List.mem_cons]
      exact ⟨.inr, fun hmem => hmem.resolve_left hc⟩
    · have hok := h.ok b
      rw [decide_eq_true (by rw [hdrop]; exact List.mem_cons_self)] at hok
      have hpin : decide (b ∈ (installBlock d tail b).lh.drop (tail + 1)) = false :=
        decide_eq_false hnot
      rw [installBlock_buf_self, dirty_update (hdirty b), installBlock_home_self, hpin]
      exact hok.install
    · exact (Point.install.inj (install_update hcounts hct hv)).symm
  | @installDone tail htail =>
    have hct : (pt t).commits = true := by rw [hpt]; rfl
    have hk : tail = k := h.installed t tail hpt
    subst hk
    refine ⟨0, fun c => ?_, fun v tail' hv => ?_, fun _ => rfl⟩
    · rw [dirty_update (by rw [hpt]; exact .rfl)]
      have hok := h.ok c
      rw [List.drop_eq_nil_of_le htail] at hok
      exact hok
    · exact absurd (install_update hcounts hct hv) nofun
  | _ => exact hgo rfl rfl rfl rfl nofun nofun

/-- **Step lemma**, under `log.lock`. -/
theorem acts [Fintype τ] (h : Buffers S d pt k) (hcounts : Counts d pt)
    {a : Monitor.Act (Log τ β) Point Unit} (hact : Acts d (pt t) a) :
    ∃ k', Buffers S (a.data d) (Function.update pt t a.point) k' := by
  generalize hpt : pt t = p at hact
  have hgo : ∀ (d' : Log τ β) (q : Point), d'.buf = d.buf → d'.disk = d.disk → d'.lh = d.lh →
      q.dirty = p.dirty → (∀ tail, p ≠ .install tail) → (∀ tail, q ≠ .install tail) →
      ∃ k', Buffers S d' (Function.update pt t q) k' := fun d' q hbuf hdisk hlh hdirty hp hq =>
    ⟨k, h.go hbuf (by rw [hdisk]) hlh (by rw [hpt, hdirty]) (by rw [hpt]; exact hp) hq⟩
  cases hact with
  | @absorb b ws hb =>
    have hk : k = 0 := h.eq_zero hcounts (hcounts.not_committing (t := t) (by rw [hpt]; rfl))
    subst hk
    have htails := h.tails (t := t) (q := .logged (ws.insert b)) (by rw [hpt]; nofun) nofun
    refine ⟨0, h.move b (fun _ _ => rfl) (fun _ _ => rfl) (fun _ _ => .rfl) (fun c hc => ?_) ?_
      htails.1 htails.2⟩
    · rw [hpt]
      exact iff_of_false nofun fun hbc => hc (Option.some.inj hbc).symm
    · have hok := h.ok b
      rw [List.drop_zero, decide_eq_true hb] at hok
      change BufOk (d.buf b) (d.disk.home b) (decide (b ∈ d.lh.drop 0)) _ _
      rw [List.drop_zero, decide_eq_true hb]
      exact hok.absorb fun u => dirty_of_update rfl
  | @append b ws hroom hb =>
    have hk : k = 0 := h.eq_zero hcounts (hcounts.not_committing (t := t) (by rw [hpt]; rfl))
    subst hk
    have htails := h.tails (t := t) (q := .logged (ws.insert b)) (by rw [hpt]; nofun) nofun
    have hown : (d.buf b).owner = some t := (h.ok b).owned t (by rw [hpt]; rfl)
    refine ⟨0, h.move b (fun c hc => append_buf_of_ne hc) (fun _ _ => rfl) (fun c hc => ?_)
      (fun c hc => ?_) ?_ htails.1 htails.2⟩
    · change c ∈ d.lh ++ [b] ↔ c ∈ d.lh
      rw [List.mem_append, List.mem_singleton]
      exact ⟨fun hmem => hmem.resolve_right hc, .inl⟩
    · rw [hpt]
      exact iff_of_false nofun fun hbc => hc (Option.some.inj hbc).symm
    · have hok := h.ok b
      rw [List.drop_zero, decide_eq_false hb] at hok
      have hpin : decide (b ∈ (append d b).lh.drop 0) = true :=
        decide_eq_true (List.mem_append_right _ List.mem_cons_self)
      change BufOk ((append d b).buf b) (d.disk.home b) (decide (b ∈ (append d b).lh.drop 0)) _ _
      rw [append_buf_self, hpin]
      exact hok.pin hown fun u => dirty_of_update rfl
  | _ => exact hgo _ _ rfl rfl rfl rfl nofun nofun

end Buffers

end Buffers

/-! ### What readers see -/

section View

variable {τ β : Type*} {S : ℕ → Prop} {d : Log τ β} {pt : τ → Point} {k : ℕ} {t : τ}

theorem BufOk.not_pinned {x : Buf τ β} {home : β} {pinned : Bool} {dirty : τ → Prop}
    {spoilt : Prop} (h : BufOk x home pinned dirty spoilt) (href : x.refcnt = 0) :
    pinned = false ∧ ∀ t, ¬ dirty t := by
  have hsum := h.ref
  rw [href] at hsum
  refine ⟨?_, fun t ht => ?_⟩
  · cases pinned with
    | false => rfl
    | true => simp at hsum
  · rw [h.owned t ht, Option.isSome_some, Bool.toNat_true] at hsum
    omega

theorem Log.view_setBuf_of_ne {f : Buf τ β → Buf τ β} (hc : c ≠ b) :
    (d.setBuf b f).view c = d.view c := by
  rw [Log.view, Log.setBuf_of_ne hc]
  rfl

theorem Log.view_setBuf {f : Buf τ β → Buf τ β}
    (hf : (f (d.buf b)).data.getD (d.disk.home b) = d.view b) : (d.setBuf b f).view = d.view := by
  ext c
  by_cases hc : c = b
  · rw [hc, Log.view, Log.setBuf_self]
    exact hf
  · exact Log.view_setBuf_of_ne hc

/-- A buffer that is taken for another block is not pinned, and holds what the disk has if its
    changes have all been logged. -/
theorem view_recycle (h : Buffers S d pt k) (href : (d.buf b).refcnt = 0)
    (hc : c ∈ d.lh.drop k ∨ ¬ S c) : (recycle d b).view c = d.view c := by
  obtain ⟨hpinned, hdirty⟩ := (h.ok b).not_pinned href
  by_cases hcb : c = b
  · subst hcb
    have hclean := (h.ok c).clean (hc.resolve_left (of_decide_eq_false hpinned)) hpinned hdirty
    rw [Log.view, recycle, Log.setBuf_self]
    exact hclean.symm
  · exact Log.view_setBuf_of_ne hcb

theorem view_bread : (bread t d b).view = d.view := Log.view_setBuf rfl

theorem view_brelse : (brelse d b).view = d.view := Log.view_setBuf rfl

theorem view_logBlock : (logBlock d tail b).view = d.view := by
  ext c
  by_cases hc : c = b
  · rw [hc, Log.view, logBlock_buf_self]
    rfl
  · rw [Log.view, logBlock_buf_of_ne hc]
    rfl

theorem view_installBlock_self :
    (installBlock d tail b).view b = d.disk.log tail := by
  rw [Log.view, installBlock_buf_self]
  rfl

theorem view_installBlock_of_ne (hc : c ≠ b) :
    (installBlock d tail b).view c = d.view c := by
  rw [Log.view, installBlock_buf_of_ne hc, installBlock_home_of_ne hc]
  rfl

end View

/-! ### Commits -/

section Durable

variable {τ β : Type*}

/-- What a commit that begins now will bring to the disk: the blocks in the log as readers see
    them, and the others as they were. -/
def Log.committed (d : Log τ β) (old : ℕ → β) (b : ℕ) : β := if b ∈ d.lh then d.view b else old b

/-- The contents at the last commit, and those that are being committed. -/
structure Snaps (β : Type*) where
  old : ℕ → β
  new : Option (ℕ → β)

/-- The contents after the commit in progress. -/
def Snaps.next (g : Snaps β) : ℕ → β := g.new.getD g.old

/-- What an observer of `committing` notes. The commit begins when the last operation ends; it
    is done when `end_op` says so. -/
def Snaps.note (g : Snaps β) (c : Bool) (d : Log τ β) : Snaps β :=
  match c, d.committing with
  | false, true => { g with new := some (d.committed g.old) }
  | true, false => ⟨g.next, none⟩
  | _, _ => g

theorem Snaps.note_self {g : Snaps β} {c : Bool} {d : Log τ β} (hc : d.committing = c) :
    g.note c d = g := by
  subst hc
  unfold Snaps.note
  cases d.committing <;> rfl

/-- How far the commit of the contents `new` has got. -/
def Stage (d : Log τ β) (old new : ℕ → β) : Point → Prop
  | .endedLast | .commit => d.disk.head = [] ∧ d.disk.home = old ∧ new = d.committed old
  | .writeLog tail => d.disk.head = [] ∧ d.disk.home = old ∧ new = d.committed old ∧
      ∀ i b, i < tail → d.lh[i]? = some b → d.disk.log i = new b
  | .writeHead => d.disk.head = [] ∧ d.disk.home = old ∧ new = d.committed old ∧
      ∀ i b, d.lh[i]? = some b → d.disk.log i = new b
  | .install tail => d.disk.head = d.lh ∧ (∀ i b, d.lh[i]? = some b → d.disk.log i = new b) ∧
      ∀ b, b ∉ d.lh.drop tail → d.disk.home b = new b
  | .clearHead => d.disk.replayed = new ∧ d.disk.home = new
  | .finishing => d.disk.head = [] ∧ d.disk.home = new
  | _ => True

/-- **The invariant** of the disk. -/
structure Durable (S : ℕ → Prop) (d : Log τ β) (pt : τ → Point) (g : Snaps β) : Prop where
  idle : d.committing = false → d.disk.head = [] ∧ d.disk.home = g.old ∧ g.new = none
  new : d.committing = true → g.new = some g.next
  view : d.committing = true → ∀ b, ¬ S b → d.view b = g.next b
  stage : ∀ t, Stage d g.old g.next (pt t)

variable {S : ℕ → Prop} {d d' : Log τ β} {pt : τ → Point} {g : Snaps β} {k : ℕ} {t : τ}
  {i : Input β} {q : Point} {old new : ℕ → β}

theorem Log.committed_of_mem (hb : b ∈ d.lh) : d.committed old b = d.view b := if_pos hb

theorem Log.committed_of_notMem (hb : b ∉ d.lh) : d.committed old b = old b := if_neg hb

theorem Log.committed_congr (hlh : d'.lh = d.lh) (hview : ∀ b ∈ d.lh, d'.view b = d.view b) :
    d'.committed old = d.committed old := by
  ext b
  by_cases hb : b ∈ d.lh
  · rw [Log.committed_of_mem (hlh ▸ hb), Log.committed_of_mem hb, hview b hb]
  · rw [Log.committed_of_notMem (hlh ▸ hb), Log.committed_of_notMem hb]

theorem Stage.of_not_commits (hp : p.commits = false) : Stage d old new p := by
  cases p <;> trivial

/-- Thread `t` goes on to `q`, and no other thread commits. -/
theorem Stage.update [DecidableEq τ] (hq : Stage d old new q)
    (hother : ∀ v, v ≠ t → (pt v).commits = false) (v : τ) :
    Stage d old new (Function.update pt t q v) := by
  by_cases hv : v = t
  · rw [hv, Function.update_self]
    exact hq
  · rw [Function.update_of_ne hv]
    exact .of_not_commits (hother v hv)

/-- The committer installs blocks. -/
def Point.installs : Point → Bool
  | .install _ => true
  | _ => false

theorem Stage.congr (h : Stage d old new p) (hdisk : d'.disk = d.disk) (hlh : d'.lh = d.lh)
    (hview : p.installs = false → ∀ b ∈ d.lh, d'.view b = d.view b) : Stage d' old new p := by
  cases p with
  | endedLast | commit | writeLog | writeHead =>
    simp only [Stage, hdisk, hlh, Log.committed_congr hlh (hview rfl)]
    exact h
  | install | clearHead | finishing =>
    simp only [Stage, hdisk, hlh]
    exact h
  | _ => trivial

theorem Disk.mem_entries {K : Disk β} {w : ℕ × β} (hw : w ∈ K.entries) :
    ∃ i, K.head[i]? = some w.1 ∧ w.2 = K.log i := by
  obtain ⟨i, hi, rfl⟩ := List.mem_mapIdx.mp hw
  exact ⟨i, List.getElem?_eq_getElem hi, rfl⟩

theorem Disk.entries_fst (K : Disk β) : K.entries.map Prod.fst = K.head := by
  refine List.ext_getElem? fun i => ?_
  rw [Disk.entries, List.getElem?_map, List.getElem?_mapIdx, Option.map_map]
  cases K.head[i]? <;> rfl

theorem Disk.replayed_of_nil {K : Disk β} (h : K.head = []) : K.replayed = K.home := by
  rw [Disk.replayed, Disk.entries, h]
  rfl

/-- A log with blocks of `new`, and at home the other blocks of `new`. -/
theorem Disk.replayed_eq {K : Disk β} (hlog : ∀ i b, K.head[i]? = some b → K.log i = new b)
    (hhome : ∀ b, b ∉ K.head → K.home b = new b) : K.replayed = new := by
  refine RedoLog.replay_eq (fun w hw => ?_) fun b hb => ?_
  · obtain ⟨i, hi, hw⟩ := Disk.mem_entries hw
    rw [hw, hlog i w.1 hi]
  · rw [Disk.entries_fst] at hb
    exact hhome b hb

theorem Stage.replayed_of_install (h : Stage d old new (.install tail)) :
    d.disk.replayed = new := by
  obtain ⟨hhead, hlog, hhome⟩ := h
  refine Disk.replayed_eq (hhead ▸ hlog) fun b hb => hhome b fun hmem => hb ?_
  rw [hhead]
  exact List.mem_of_mem_drop hmem

namespace Durable

theorem recycle [Fintype τ] (h : Durable S d pt g) (hcounts : Counts d pt)
    (hbuf : Buffers S d pt k) (href : (d.buf b).refcnt = 0) :
    Durable S (recycle d b) pt g where
  idle := h.idle
  new := h.new
  view hc c hS := (view_recycle hbuf href (.inr hS)).trans (h.view hc c hS)
  stage v := by
    cases hv : (pt v).commits with
    | false => exact .of_not_commits hv
    | true =>
      refine (h.stage v).congr rfl rfl fun hp c hc => view_recycle hbuf href (.inl ?_)
      have hk : k = 0 := hbuf.eq_zero_of_commits hcounts hv fun tail htail => by
        rw [htail] at hp
        cases hp
      rw [hk]
      exact hc

variable [DecidableEq τ]

theorem same (h : Durable S d pt g) (hc : d'.committing = d.committing) (hdisk : d'.disk = d.disk)
    (hlh : d'.lh = d.lh) (hview : d'.view = d.view) (hq : Stage d g.old g.next q) :
    Durable S d' (Function.update pt t q) g where
  idle := by
    rw [hc, hdisk]
    exact h.idle
  new := by
    rw [hc]
    exact h.new
  view := by
    rw [hc, hview]
    exact h.view
  stage v := by
    by_cases hv : v = t
    · rw [hv, Function.update_self]
      exact hq.congr hdisk hlh fun _ b _ => by rw [hview]
    · rw [Function.update_of_ne hv]
      exact (h.stage v).congr hdisk hlh fun _ b _ => by rw [hview]

variable [Fintype τ]

theorem advance (h : Durable S d pt g) (hcounts : Counts d pt) (ht : (pt t).commits = true)
    (hc : d'.committing = d.committing) (hview : ∀ b, ¬ S b → d'.view b = g.next b)
    (hq : Stage d' g.old g.next q) : Durable S d' (Function.update pt t q) g where
  idle hc' := absurd ((hc.symm.trans hc').symm.trans (hcounts.committing_of ht)) nofun
  new := by
    rw [hc]
    exact h.new
  view _ := hview
  stage := hq.update fun _ => hcounts.not_commits_of_ne ht

theorem away (h : Durable S d pt g) (hcounts : Counts d pt) (hc : d.committing = false)
    (hc' : d'.committing = false) (hdisk : d'.disk = d.disk) (hq : q.commits = false) :
    Durable S d' (Function.update pt t q) g where
  idle _ := hdisk ▸ h.idle hc
  new hc'' := absurd (hc'.symm.trans hc'') nofun
  view hc'' := absurd (hc'.symm.trans hc'') nofun
  stage := (Stage.of_not_commits hq).update fun v _ => hcounts.not_commits hc v

/-- **Step lemma**, without `log.lock`. -/
theorem frees (h : Durable S d pt g) (hcounts : Counts d pt) (hbuf : Buffers S d pt k)
    (hfree : Frees t i d (pt t) d' q) : Durable S d' (Function.update pt t q) g := by
  have hstage := h.stage t
  generalize hpt : pt t = p at hfree hstage
  have hview : p.commits = true → ∀ b, ¬ S b → d.view b = g.next b := fun hp =>
    h.view (hcounts.committing_of (t := t) (hpt ▸ hp))
  have hadvance : p.commits = true → d'.committing = d.committing →
      (∀ b, ¬ S b → d'.view b = g.next b) → Stage d' g.old g.next q →
      Durable S d' (Function.update pt t q) g := fun hp => h.advance hcounts (hpt ▸ hp)
  cases hfree with
  | recycle href =>
    rw [← hpt, Function.update_eq_self]
    exact h.recycle hcounts hbuf href
  | beginOp => exact h.same rfl rfl rfl rfl trivial
  | sync => exact h.same rfl rfl rfl rfl trivial
  | bread hp hb => exact h.same rfl rfl rfl view_bread hstage
  | brelse hp hb => exact h.same rfl rfl rfl view_brelse hstage
  | update hi hb =>
    have hc := hcounts.not_committing (t := t) (by rw [hpt]; rfl)
    exact h.away hcounts hc hc rfl rfl
  | scribble hi hb =>
    have hc := hcounts.not_committing (t := t) (by rw [hpt]; rfl)
    exact h.away hcounts hc hc rfl rfl
  | endOp => exact h.same rfl rfl rfl rfl trivial
  | nothing hlh =>
    obtain ⟨hhead, hhome, hnew⟩ := hstage
    refine hadvance rfl rfl (hview rfl) ⟨hhead, ?_⟩
    rw [hhome, hnew]
    ext b
    rw [Log.committed_of_notMem (by rw [hlh]; exact List.not_mem_nil)]
  | something hlh =>
    obtain ⟨hhead, hhome, hnew⟩ := hstage
    exact hadvance rfl rfl (hview rfl)
      ⟨hhead, hhome, hnew, fun i b hi => absurd hi (Nat.not_lt_zero i)⟩
  | @log tail b htail hb =>
    obtain ⟨hhead, hhome, hnew, hlog⟩ := hstage
    have hsame : (logBlock d tail b).committed g.old = d.committed g.old :=
      Log.committed_congr rfl fun c _ => by rw [view_logBlock]
    refine hadvance rfl rfl (fun c hS => by rw [view_logBlock]; exact hview rfl c hS)
      ⟨hhead, hhome, hnew.trans hsame.symm, fun i c hi hc => ?_⟩
    have hc' : d.lh[i]? = some c := hc
    change Function.update d.disk.log tail (d.view b) i = g.next c
    by_cases hit : i = tail
    · subst hit
      rw [htail] at hc'
      cases hc'
      rw [Function.update_self, hnew, Log.committed_of_mem (List.mem_of_getElem? htail)]
    · rw [Function.update_of_ne hit]
      exact hlog i c (by omega) hc'
  | @logDone tail htail =>
    obtain ⟨hhead, hhome, hnew, hlog⟩ := hstage
    refine hadvance rfl rfl (hview rfl) ⟨hhead, hhome, hnew, fun i b hi => hlog i b ?_ hi⟩
    exact (List.getElem?_eq_some_iff.mp hi).1.trans_le htail
  | head =>
    obtain ⟨hhead, hhome, hnew, hlog⟩ := hstage
    refine hadvance rfl rfl (hview rfl) ⟨rfl, hlog, fun b hb => ?_⟩
    have hb : b ∉ d.lh := hb
    change d.disk.home b = g.next b
    rw [hhome, hnew, Log.committed_of_notMem hb]
  | @install tail b htail hb =>
    obtain ⟨hhead, hlog, hhome⟩ := hstage
    refine hadvance rfl rfl (fun c hS => ?_) ⟨hhead, hlog, fun c hc => ?_⟩
    · by_cases hcb : c = b
      · rw [hcb, view_installBlock_self]
        exact hlog tail b htail
      · rw [view_installBlock_of_ne hcb]
        exact hview rfl c hS
    · by_cases hcb : c = b
      · rw [hcb, installBlock_home_self]
        exact hlog tail b htail
      · rw [installBlock_home_of_ne hcb]
        refine hhome c ?_
        rw [drop_eq_cons htail, List.mem_cons, not_or]
        exact ⟨hcb, hc⟩
  | @installDone tail htail =>
    have hreplayed := hstage.replayed_of_install
    obtain ⟨hhead, hlog, hhome⟩ := hstage
    refine hadvance rfl rfl (hview rfl) ⟨hreplayed, funext fun b => hhome b ?_⟩
    rw [List.drop_eq_nil_of_le htail]
    exact List.not_mem_nil
  | clear =>
    have hlh : d.lh = [] := hcounts.emptied t (by rw [hpt]; rfl)
    exact hadvance rfl rfl (hview rfl) ⟨hlh, hstage.2⟩

omit [DecidableEq τ] in
/-- When the last operation ends, readers see what is going to be committed. -/
theorem view_of_last (h : Durable S d pt g) (hcounts : Counts d pt) (hbuf : Buffers S d pt k)
    (hc : d.committing = false) (hdirty : ∀ v b, (pt v).dirty ≠ some b) (hS : ¬ S b) :
    d.view b = d.committed g.old b := by
  by_cases hb : b ∈ d.lh
  · exact (Log.committed_of_mem hb).symm
  · rw [Log.committed_of_notMem hb, ← (h.idle hc).2.1]
    refine (hbuf.ok b).clean hS (decide_eq_false ?_) fun v => hdirty v b
    rw [hbuf.eq_zero hcounts hc]
    exact hb

/-- **Step lemma**, under `log.lock`. -/
theorem acts (h : Durable S d pt g) (hcounts : Counts d pt) (hbuf : Buffers S d pt k)
    {a : Monitor.Act (Log τ β) Point Unit} (hact : Acts d (pt t) a) :
    Durable S (a.data d) (Function.update pt t a.point) (g.note d.committing (a.data d)) := by
  have hstage := h.stage t
  have hcounts' := hcounts.acts hact
  generalize hpt : pt t = p at hact hstage
  have hsame : ∀ q : Point, Stage d g.old g.next q → Durable S d (Function.update pt t q)
      (g.note d.committing d) := by
    intro q hq
    rw [Snaps.note_self rfl]
    exact h.same rfl rfl rfl rfl hq
  have hop : p.ops = 1 → d.committing = false := fun hp =>
    hcounts.not_committing (t := t) (hpt ▸ hp)
  have haway : ∀ (d' : Log τ β) (q : Point), d.committing = false → d'.committing = false →
      d'.disk = d.disk → q.commits = false →
      Durable S d' (Function.update pt t q) (g.note d.committing d') := by
    intro d' q hc hc' hdisk hq
    rw [Snaps.note_self (hc'.trans hc.symm)]
    exact h.away hcounts hc hc' hdisk hq
  cases hact with
  | enter hc hroom => exact haway _ _ hc hc rfl rfl
  | append hroom hb => exact haway _ _ (hop rfl) (hop rfl) rfl rfl
  | bad hc => exact absurd (hc.symm.trans (hop rfl)) nofun
  | other hc ho => exact haway _ _ hc hc rfl rfl
  | last hc ho =>
    obtain ⟨hhead, hhome, -⟩ := h.idle hc
    -- no other operation is in progress
    have hdirty : ∀ v b, (pt v).dirty ≠ some b := by
      intro v b hv
      by_cases hvt : v = t
      · rw [hvt, hpt] at hv
        cases hv
      · have hops := hcounts'.no_ops rfl v
        rw [Function.update_of_ne hvt, Point.ops_of_dirty hv] at hops
        cases hops
    rw [hc]
    refine ⟨nofun, fun _ => rfl, fun _ b hS => h.view_of_last hcounts hbuf hc hdirty hS, ?_⟩
    exact Stage.update ⟨hhead, hhome, rfl⟩ fun v _ => hcounts.not_commits hc v
  | finish =>
    have hct : (pt t).commits = true := by rw [hpt]; rfl
    obtain ⟨hhead, hhome⟩ := hstage
    rw [hcounts.committing_of hct]
    refine ⟨fun _ => ⟨hhead, hhome, rfl⟩, nofun, nofun, ?_⟩
    exact (Stage.of_not_commits rfl).update fun _ => hcounts.not_commits_of_ne hct
  | toCommit => exact hsame _ hstage
  | _ => exact hsame _ trivial

omit [DecidableEq τ] in
/-- The disk with its log holds the last commit, or the one in progress. -/
theorem replayed (h : Durable S d pt g) (hcounts : Counts d pt) :
    d.disk.replayed = g.old ∨ g.new = some d.disk.replayed := by
  cases hc : d.committing with
  | false =>
    obtain ⟨hhead, hhome, -⟩ := h.idle hc
    rw [Disk.replayed_of_nil hhead]
    exact .inl hhome
  | true =>
    obtain ⟨t, ht⟩ := hcounts.committing.mp hc
    have hstage := h.stage t
    rw [h.new hc]
    cases hp : pt t with
    | endedLast | commit | writeLog tail | writeHead =>
      rw [hp] at hstage
      exact .inl (by rw [Disk.replayed_of_nil hstage.1, hstage.2.1])
    | install tail =>
      rw [hp] at hstage
      exact .inr (by rw [hstage.replayed_of_install])
    | clearHead =>
      rw [hp] at hstage
      exact .inr (by rw [hstage.1])
    | finishing =>
      rw [hp] at hstage
      exact .inr (by rw [Disk.replayed_of_nil hstage.1, hstage.2])
    | _ =>
      rw [hp] at ht
      cases ht

end Durable

end Durable

end MiniOs.Xv6.Logs
