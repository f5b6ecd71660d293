import Mathlib.Order.Nat
import MiniOs.Xv6.Sections

/-!
# Arrival stamps

`mlfq_enqueue` hands out the values of a counter. While the counter has not
wrapped around, the stamps of the waiting processes are distinct and below it,
and a process that waits with an old stamp has been waiting since that stamp was
drawn.
-/

namespace MiniOs.Xv6

open Trace

variable {e : Section}

variable {k k' k'' : Kernel}

/-- Slot `x` is in a ready queue. -/
def Waiting (k : Kernel) (x : Slot) : Prop := (k.proc x).state = .runnable

instance (k : Kernel) (x : Slot) : Decidable (Waiting k x) := inferInstanceAs (Decidable (_ = _))

/-- While fewer than `2^64` stamps have been drawn, waiting processes have
    distinct stamps, all of them drawn already. -/
def StampInv (k : Kernel) : Prop :=
  k.mlfqSeq ≤ 2 ^ 64 →
    (∀ x, Waiting k x → (k.proc x).enqTime < k.mlfqSeq) ∧
    ∀ x y, Waiting k x → Waiting k y → (k.proc x).enqTime = (k.proc y).enqTime → x = y

/-- A slot that waits in `k'` has waited since `k` with the same stamp, or its
    stamp was drawn after `k`. -/
def StampRel (k k' : Kernel) : Prop :=
  k.mlfqSeq ≤ k'.mlfqSeq ∧
  (k'.mlfqSeq ≤ 2 ^ 64 → ∀ x, Waiting k' x →
    (Waiting k x ∧ (k'.proc x).enqTime = (k.proc x).enqTime) ∨
      k.mlfqSeq ≤ (k'.proc x).enqTime)

theorem StampRel.refl (k : Kernel) : StampRel k k :=
  ⟨le_rfl, fun _ _ hx => Or.inl ⟨hx, rfl⟩⟩

theorem StampRel.trans (h : StampRel k k') (h' : StampRel k' k'') : StampRel k k'' := by
  refine ⟨h.1.trans h'.1, fun hle x hx => ?_⟩
  rcases h'.2 hle x hx with ⟨hx', he⟩ | hnew
  · rcases h.2 (h'.1.trans hle) x hx' with ⟨hx₀, he₀⟩ | hnew
    · exact Or.inl ⟨hx₀, he.trans he₀⟩
    · exact Or.inr (he ▸ hnew)
  · exact Or.inr (h.1.trans hnew)

/-- A section that makes `x` wait draws its stamp; other waiting slots keep
    theirs. -/
theorem sectionStep_waiting {x : Slot} (hk : CpuInv k) (h : sectionStep .mlfq k e = some k')
    (hx : Waiting k' x) :
    (Waiting k x ∧ (k'.proc x).enqTime = (k.proc x).enqTime) ∨
      (Enqueues k x e ∧ k'.mlfqSeq = k.mlfqSeq + 1 ∧
        (k'.proc x).enqTime = k.mlfqSeq % 2 ^ 64) := by
  unfold Waiting at hx ⊢
  generalize hp : k'.proc x = p at hx ⊢
  have hc := hp ▸ sectionStep_slotChange hk h x
  cases hc with
  | keep hn hs hq he ht => exact Or.inl ⟨hs ▸ hx, he⟩
  | enqueue hen hs hr hq he ht => exact Or.inr ⟨hen, hen.mlfqSeq h, he rfl⟩
  | boost hb hu hs hq ht he => exact Or.inl ⟨hs ▸ hx, he⟩
  | create hu hs hq ht => simp [hs] at hx
  | abort hu hs hq ht he => simp [hs] at hx
  | sleep hc hs hq ht => simp [hs] at hx
  | exit hc hs hq ht => simp [hs] at hx
  | free hz hs hq ht => simp [hs] at hx
  | run hr hs hq he ht => simp [hs] at hx
  | charge hb hc =>
    have hrun := hk.running_of_cpu _ _ hc
    rw [chargeTick_state, hrun] at hx
    cases hx

theorem sectionStep_stampRel (hk : CpuInv k) (h : sectionStep .mlfq k e = some k') :
    StampRel k k' := by
  refine ⟨sectionStep_mlfqSeq_le h, fun hle x hx => ?_⟩
  rcases sectionStep_waiting hk h hx with hold | ⟨-, hseq, he⟩
  · exact Or.inl hold
  · right
    rw [he, Nat.mod_eq_of_lt (by omega)]

theorem sectionStep_stampInv (hk : CpuInv k) (h : sectionStep .mlfq k e = some k')
    (hI : StampInv k) : StampInv k' := by
  intro hle
  have hmono := sectionStep_mlfqSeq_le h
  obtain ⟨hlt, hinj⟩ := hI (hmono.trans hle)
  refine ⟨fun x hx => ?_, fun x y hx hy hxy => ?_⟩
  · rcases sectionStep_waiting hk h hx with ⟨hx₀, he⟩ | ⟨-, hseq, he⟩
    · have := hlt x hx₀
      omega
    · rw [he, Nat.mod_eq_of_lt (by omega)]
      omega
  · -- two slots that both drew a stamp are the slot of the section; a drawn
    -- stamp is above every stamp that was waiting
    rcases sectionStep_waiting hk h hx with ⟨hx₀, hex⟩ | ⟨henx, hseq, hex⟩ <;>
      rcases sectionStep_waiting hk h hy with ⟨hy₀, hey⟩ | ⟨heny, hseq', hey⟩
    · exact hinj x y hx₀ hy₀ (by rw [← hex, ← hey, hxy])
    · have := hlt x hx₀
      rw [hex, hey, Nat.mod_eq_of_lt (by omega)] at hxy
      omega
    · have := hlt y hy₀
      rw [hex, hey, Nat.mod_eq_of_lt (by omega)] at hxy
      omega
    · exact henx.unique heny

/-- A waiting process keeps its place until it is dispatched: no other section
    takes it out of its queue or changes its stamp, and only a boost changes the
    queue, to 0. -/
theorem sectionStep_stays_waiting {x : Slot} (hk : CpuInv k) (h : sectionStep .mlfq k e = some k')
    (hx : Waiting k x) (hd : ∀ c, e ≠ .dispatch c x) :
    Waiting k' x ∧ (k'.proc x).enqTime = (k.proc x).enqTime ∧
      ((k'.proc x).queue = (k.proc x).queue ∨ (k'.proc x).queue = 0) := by
  unfold Waiting at hx ⊢
  generalize hp : k'.proc x = p
  have hc := hp ▸ sectionStep_slotChange hk h x
  cases hc with
  | keep hn hs hq he ht => exact ⟨hs.trans hx, he, Or.inl hq⟩
  | boost hb hu hs hq ht he => exact ⟨hs.trans hx, he, Or.inr hq⟩
  | run hr hs hq he ht => exact absurd rfl (hd _)
  | create hu hs hq ht => simp [hu] at hx
  | abort hu hs hq ht he => simp [hu] at hx
  | free hz hs hq ht => simp [hz] at hx
  | enqueue hen hs hr hq he ht => simp [hx] at hs
  | sleep hc hs hq ht => simp [hk.running_of_cpu _ _ hc] at hx
  | exit hc hs hq ht => simp [hk.running_of_cpu _ _ hc] at hx
  | charge hb hc => simp [hk.running_of_cpu _ _ hc] at hx

end MiniOs.Xv6
