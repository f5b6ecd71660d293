import Mathlib.Computability.ContextFreeGrammar
import Mathlib.Data.Finset.Image

/-!
# Right-linear grammars

A right-linear grammar has the rules `A -> epsilon` and `A -> a B` only. It is a
context-free grammar, and a word is in its language exactly when a scan of the word
from left to right, that picks one rule for each letter, ends in a nonterminal with
an empty rule.

## Main definitions

- `RightLinear` — the two kinds of rules
- `RightLinear.toContextFree` — the same grammar with rewriting as its meaning
- `RightLinear.Accepts` — the scan

## Main results

- `RightLinear.mem_language_iff` — the scan decides the language
-/

namespace MiniOs

/-- A grammar with the rules `A -> epsilon` for `A ∈ stops` and `A -> a B` for
    `(A, a, B) ∈ arcs`. -/
structure RightLinear (T : Type*) (N : Type) where
  initial : N
  stops : Finset N
  arcs : Finset (N × T × N)

namespace RightLinear

variable {T : Type*} {N : Type} (g : RightLinear T N)

/-- Some choice of rules reads the word from nonterminal `A`. -/
def Accepts : N → List T → Prop
  | A, [] => A ∈ g.stops
  | A, a :: w => ∃ B, (A, a, B) ∈ g.arcs ∧ Accepts B w

theorem accepts_nil {A : N} : g.Accepts A [] ↔ A ∈ g.stops := Iff.rfl

theorem accepts_cons {A : N} {a : T} {w : List T} :
    g.Accepts A (a :: w) ↔ ∃ B, (A, a, B) ∈ g.arcs ∧ g.Accepts B w := Iff.rfl

def stopRule (A : N) : ContextFreeRule T N := ⟨A, []⟩

def arcRule (r : N × T × N) : ContextFreeRule T N :=
  ⟨r.1, [.terminal r.2.1, .nonterminal r.2.2]⟩

section Language

variable [DecidableEq T] [DecidableEq N]

@[reducible]
def toContextFree : ContextFreeGrammar T where
  NT := N
  initial := g.initial
  rules := g.stops.image stopRule ∪ g.arcs.image arcRule

variable {g}

theorem mem_rules {r : ContextFreeRule T N} :
    r ∈ g.toContextFree.rules ↔
      (∃ A ∈ g.stops, stopRule A = r) ∨ ∃ q ∈ g.arcs, arcRule q = r := by
  simp only [toContextFree, Finset.mem_union, Finset.mem_image]

/-- A form with one nonterminal, at its end, is rewritten there. -/
theorem produces_linear {u : List T} {A : N} {v : List (Symbol T N)}
    (h : g.toContextFree.Produces (u.map .terminal ++ [.nonterminal A]) v) :
    (A ∈ g.stops ∧ v = u.map .terminal) ∨
      ∃ a B, (A, a, B) ∈ g.arcs ∧ v = (u ++ [a]).map .terminal ++ [.nonterminal B] := by
  obtain ⟨r, hr, hrw⟩ := h
  obtain ⟨p, q, hu, hv⟩ := hrw.exists_parts
  -- the rewritten nonterminal is the last symbol
  have hparts : p = u.map .terminal ∧ r.input = A ∧ q = [] := by
    rcases List.eq_nil_or_concat' q with rfl | ⟨q, x, rfl⟩
    · rw [List.append_nil] at hu
      obtain ⟨hp, hA⟩ := List.append_inj' hu rfl
      simp only [List.cons.injEq, Symbol.nonterminal.injEq, and_true] at hA
      exact ⟨hp.symm, hA.symm, rfl⟩
    · rw [← List.append_assoc] at hu
      obtain ⟨hp, -⟩ := List.append_inj' hu rfl
      have hmem : Symbol.nonterminal r.input ∈ u.map (Symbol.terminal (N := N)) := by
        rw [hp]
        simp
      simp at hmem
  obtain ⟨rfl, rfl, rfl⟩ := hparts
  rw [List.append_nil] at hv
  rcases mem_rules.mp hr with ⟨B, hB, rfl⟩ | ⟨⟨B, a, C⟩, harc, rfl⟩
  · left
    exact ⟨hB, by simpa [stopRule] using hv⟩
  · right
    exact ⟨a, C, harc, by simpa [arcRule] using hv⟩

theorem not_produces_terminal {u : List T} {v : List (Symbol T N)} :
    ¬ g.toContextFree.Produces (u.map .terminal) v := by
  rintro ⟨r, -, hrw⟩
  have hmem := hrw.nonterminal_input_mem
  simp at hmem

/-- What a form with at most one nonterminal, at its end, derives. -/
theorem accepts_of_derives {v : List (Symbol T N)} {w : List T}
    (h : g.toContextFree.Derives v (w.map .terminal)) :
    (∀ u, v = u.map .terminal → u = w) ∧
    ∀ u A, v = u.map .terminal ++ [.nonterminal A] → ∃ w', w = u ++ w' ∧ g.Accepts A w' := by
  have hinj : Function.Injective (Symbol.terminal : T → Symbol T N) :=
    fun a b hab => Symbol.terminal.inj hab
  induction h using Relation.ReflTransGen.head_induction_on with
  | refl =>
    refine ⟨fun u hu => (List.map_injective_iff.mpr hinj hu).symm, fun u A hu => ?_⟩
    have hmem : Symbol.nonterminal A ∈ w.map (Symbol.terminal (N := N)) := by
      rw [hu]
      simp
    simp at hmem
  | head hstep _ ih =>
    refine ⟨fun u hu => ?_, fun u A hu => ?_⟩
    · subst hu
      exact absurd hstep not_produces_terminal
    · subst hu
      rcases produces_linear hstep with ⟨hA, rfl⟩ | ⟨a, B, harc, rfl⟩
      · exact ⟨[], by rw [← ih.1 u rfl, List.append_nil], hA⟩
      · obtain ⟨w', rfl, hw'⟩ := ih.2 (u ++ [a]) B rfl
        exact ⟨a :: w', by simp, B, harc, hw'⟩

theorem derives_of_accepts {w : List T} {A : N} (h : g.Accepts A w) (u : List T) :
    g.toContextFree.Derives (u.map .terminal ++ [.nonterminal A]) ((u ++ w).map .terminal) := by
  induction w generalizing A u with
  | nil =>
    have hrule : stopRule A ∈ g.toContextFree.rules := mem_rules.mpr (Or.inl ⟨A, h, rfl⟩)
    refine Relation.ReflTransGen.single ⟨_, hrule, ?_⟩
    simpa [stopRule] using
      (stopRule (T := T) A).rewrites_of_exists_parts (u.map .terminal) []
  | cons a w ih =>
    obtain ⟨B, harc, hB⟩ := h
    have hrule : arcRule (A, a, B) ∈ g.toContextFree.rules :=
      mem_rules.mpr (Or.inr ⟨_, harc, rfl⟩)
    have hrest := ih hB (u ++ [a])
    rw [List.append_assoc, List.singleton_append] at hrest
    refine Relation.ReflTransGen.head ⟨_, hrule, ?_⟩ hrest
    simpa [arcRule] using
      (arcRule (A, a, B)).rewrites_of_exists_parts (u.map .terminal) []

/-- **The scan decides the language.** -/
theorem mem_language_iff {w : List T} :
    w ∈ g.toContextFree.language ↔ g.Accepts g.initial w := by
  constructor
  · intro h
    obtain ⟨w', rfl, hw'⟩ := (accepts_of_derives h).2 [] g.initial rfl
    exact hw'
  · intro h
    exact derives_of_accepts h []

end Language

end RightLinear

end MiniOs
