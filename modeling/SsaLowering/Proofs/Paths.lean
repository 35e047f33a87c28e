import Mathlib
import SsaLowering.Ir.Function

/-!
# Paths and dominance

A path through a graph is listed from its end back to the entry. One vertex dominates another if
it lies on every path to it. The vertices are left open: control flow is a graph of blocks, and
the computation of dominators works on places in an order of the blocks.
-/

namespace SsaLowering.Proofs

open List

section Paths

variable {α : Type} {edge : α → α → Prop} {entry : α} {b a p : α} {trail : List α}

/-- A path from the entry to a vertex, listed from the vertex back to the entry. -/
inductive Path (edge : α → α → Prop) (entry : α) : α → List α → Prop where
  | start : Path edge entry entry [entry]
  | step {p b : α} {trail : List α} (before : Path edge entry p trail) (next : edge p b) :
      Path edge entry b (b :: trail)

/-- There is a path from the entry. -/
def Reachable (edge : α → α → Prop) (entry b : α) : Prop :=
  ∃ trail, Path edge entry b trail

/-- Every path to `b` passes through `a`. -/
def Dominates (edge : α → α → Prop) (entry a b : α) : Prop :=
  ∀ trail, Path edge entry b trail → a ∈ trail

/-- Every path to `b` passes through another vertex `a` before it. -/
def StrictlyDominates (edge : α → α → Prop) (entry a b : α) : Prop :=
  Dominates edge entry a b ∧ a ≠ b

/-- The strict dominator that all strict dominators of a vertex dominate. -/
def IsIdom (edge : α → α → Prop) (entry d b : α) : Prop :=
  StrictlyDominates edge entry d b ∧
    ∀ a, StrictlyDominates edge entry a b → Dominates edge entry a d

lemma Path.head_eq (h : Path edge entry b trail) : ∃ rest, trail = b :: rest := by
  cases h with
  | start => exact ⟨[], rfl⟩
  | step before next => exact ⟨_, rfl⟩

lemma Path.mem_self (h : Path edge entry b trail) : b ∈ trail := by
  obtain ⟨rest, rfl⟩ := h.head_eq
  exact mem_cons_self

lemma Path.entry_mem (h : Path edge entry b trail) : entry ∈ trail := by
  induction h with
  | start => exact mem_cons_self
  | step before next ih => exact mem_cons_of_mem _ ih

lemma Path.upTo (h : Path edge entry b trail) (ha : a ∈ trail) :
    ∃ upper, upper <:+ trail ∧ Path edge entry a upper := by
  induction h with
  | start =>
    obtain rfl := mem_singleton.mp ha
    exact ⟨[a], List.suffix_rfl, .start⟩
  | @step p b trail before next ih =>
    rcases mem_cons.mp ha with rfl | hmem
    · exact ⟨a :: trail, List.suffix_rfl, .step before next⟩
    · obtain ⟨upper, hsuffix, hpath⟩ := ih hmem
      exact ⟨upper, hsuffix.trans (List.suffix_cons b trail), hpath⟩

lemma Path.reachable_of_mem (h : Path edge entry b trail) (ha : a ∈ trail) :
    Reachable edge entry a := by
  obtain ⟨upper, -, hpath⟩ := h.upTo ha
  exact ⟨upper, hpath⟩

lemma Path.before {rest : List α} (h : Path edge entry b (b :: rest)) (hb : b ≠ entry) :
    ∃ p, Path edge entry p rest ∧ edge p b := by
  cases h with
  | start => exact absurd rfl hb
  | step before next => exact ⟨_, before, next⟩

/-- Cutting out cycles gives a path without repetitions on the same vertices. -/
lemma Path.exists_nodup (h : Path edge entry b trail) :
    ∃ short, Path edge entry b short ∧ short ⊆ trail ∧ short.Nodup := by
  induction h with
  | start => exact ⟨[entry], .start, List.Subset.refl _, nodup_singleton _⟩
  | @step p b trail before next ih =>
    obtain ⟨short, hpath, hsub, hnodup⟩ := ih
    by_cases hb : b ∈ short
    · obtain ⟨upper, hsuffix, hupper⟩ := hpath.upTo hb
      refine ⟨upper, hupper, fun x hx => ?_, hnodup.sublist hsuffix.sublist⟩
      exact mem_cons_of_mem _ (hsub (hsuffix.subset hx))
    · exact ⟨b :: short, .step hpath next, cons_subset_cons b hsub,
        nodup_cons.mpr ⟨hb, hnodup⟩⟩

lemma Reachable.at_entry : Reachable edge entry entry :=
  ⟨[entry], .start⟩

lemma Reachable.step (h : Reachable edge entry p) (next : edge p b) : Reachable edge entry b := by
  obtain ⟨trail, hpath⟩ := h
  exact ⟨b :: trail, .step hpath next⟩

lemma Reachable.induction {motive : α → Prop} (start : motive entry)
    (step : ∀ p b, Reachable edge entry p → edge p b → motive p → motive b)
    (h : Reachable edge entry b) : motive b := by
  obtain ⟨trail, hpath⟩ := h
  induction hpath with
  | start => exact start
  | step before next ih => exact step _ _ ⟨_, before⟩ next ih

lemma Reachable.exists_pred (h : Reachable edge entry b) (hb : b ≠ entry) :
    ∃ p, Reachable edge entry p ∧ edge p b := by
  obtain ⟨trail, hpath⟩ := h
  cases hpath with
  | start => exact absurd rfl hb
  | step before next => exact ⟨_, ⟨_, before⟩, next⟩

lemma Dominates.refl (b : α) : Dominates edge entry b b :=
  fun _ hpath => hpath.mem_self

lemma Dominates.from_entry (b : α) : Dominates edge entry entry b :=
  fun _ hpath => hpath.entry_mem

lemma Dominates.trans {c : α} (hab : Dominates edge entry a b) (hbc : Dominates edge entry b c) :
    Dominates edge entry a c := by
  intro trail hpath
  obtain ⟨upper, hsuffix, hupper⟩ := hpath.upTo (hbc trail hpath)
  exact hsuffix.subset (hab upper hupper)

lemma Dominates.reachable (hab : Dominates edge entry a b) (hb : Reachable edge entry b) :
    Reachable edge entry a := by
  obtain ⟨trail, hpath⟩ := hb
  exact hpath.reachable_of_mem (hab trail hpath)

/-- Mutual dominance would give ever shorter paths. -/
lemma Dominates.antisymm (hab : Dominates edge entry a b) (hba : Dominates edge entry b a)
    (ha : Reachable edge entry a) : a = b := by
  by_contra hne
  have hshort : ∀ n (trail : List α), trail.length ≤ n → ¬ Path edge entry a trail := by
    intro n
    induction n with
    | zero =>
      intro trail hlen hpath
      obtain ⟨rest, rfl⟩ := hpath.head_eq
      simp at hlen
    | succ n ih =>
      intro trail hlen hpath
      obtain ⟨upper, hsuffix, hupper⟩ := hpath.upTo (hba trail hpath)
      obtain ⟨upper', hsuffix', hupper'⟩ := hupper.upTo (hab upper hupper)
      have hlt : upper'.length < upper.length := by
        refine lt_of_le_of_ne hsuffix'.length_le fun heq => hne ?_
        obtain ⟨_, rfl⟩ := hupper.head_eq
        obtain ⟨_, rfl⟩ := hupper'.head_eq
        simpa using congrArg List.head? (hsuffix'.eq_of_length heq)
      exact ih upper' (by have := hsuffix.length_le; omega) hupper'
  obtain ⟨trail, hpath⟩ := ha
  exact hshort trail.length trail le_rfl hpath

/-- A strict dominator of a vertex dominates its predecessors. -/
lemma Dominates.of_edge (hab : Dominates edge entry a b) (hne : a ≠ b) (next : edge p b) :
    Dominates edge entry a p := by
  intro trail hpath
  rcases mem_cons.mp (hab _ (hpath.step next)) with rfl | hmem
  · exact absurd rfl hne
  · exact hmem

lemma Dominates.of_preds (hb : b ≠ entry)
    (h : ∀ p, Reachable edge entry p → edge p b → Dominates edge entry a p) :
    Dominates edge entry a b := by
  intro trail hpath
  cases hpath with
  | start => exact absurd rfl hb
  | step before next =>
    exact mem_cons_of_mem _ (h _ ⟨_, before⟩ next _ before)

lemma StrictlyDominates.trans_left {c : α} (hab : Dominates edge entry a b)
    (hbc : StrictlyDominates edge entry b c) (hc : Reachable edge entry c) :
    StrictlyDominates edge entry a c := by
  refine ⟨hab.trans hbc.1, ?_⟩
  rintro rfl
  exact hbc.2 (hab.antisymm hbc.1 hc).symm

lemma StrictlyDominates.ne_entry (h : StrictlyDominates edge entry a b) : b ≠ entry := by
  rintro rfl
  exact h.2 (mem_singleton.mp (h.1 _ .start))

lemma IsIdom.unique {d d' : α} (hd : IsIdom edge entry d b) (hd' : IsIdom edge entry d' b)
    (hb : Reachable edge entry b) : d = d' :=
  (hd'.2 d hd.1).antisymm (hd.2 d' hd'.1) (hd.1.1.reachable hb)

/-- Dominance on the whole, by climbing one immediate dominator. -/
lemma IsIdom.dominates_iff {d : α} (hd : IsIdom edge entry d b) :
    Dominates edge entry a b ↔ a = b ∨ Dominates edge entry a d := by
  constructor
  · intro hab
    by_cases heq : a = b
    · exact .inl heq
    · exact .inr (hd.2 a ⟨hab, heq⟩)
  · rintro (rfl | had)
    · exact .refl a
    · exact had.trans hd.1.1

/-- A vertex with a single predecessor is immediately dominated by it. -/
lemma IsIdom.of_single (hb : b ≠ entry) (hreach : Reachable edge entry b)
    (hsingle : ∀ q, Reachable edge entry q → edge q b → q = p) : IsIdom edge entry p b := by
  obtain ⟨q, hq, hqb⟩ := hreach.exists_pred hb
  obtain rfl := hsingle q hq hqb
  have hdom : Dominates edge entry q b := by
    refine .of_preds hb fun r hr hrb => ?_
    rw [hsingle r hr hrb]
    exact .refl q
  have hne : q ≠ b := by
    -- otherwise every path to `b` would come from a shorter path to `b`
    rintro rfl
    obtain ⟨trail, hpath⟩ := hq
    have hnone : ∀ trail : List α, ¬ Path edge entry q trail := by
      intro trail
      induction trail with
      | nil => exact fun h => by obtain ⟨_, h⟩ := h.head_eq; cases h
      | cons x rest ih =>
        intro h
        obtain ⟨_, heq⟩ := h.head_eq
        obtain ⟨rfl, -⟩ := List.cons.inj heq
        obtain ⟨r, hr, hrb⟩ := h.before hb
        rw [hsingle r ⟨rest, hr⟩ hrb] at hr
        exact ih hr
    exact hnone trail hpath
  exact ⟨⟨hdom, hne⟩, fun a ha => ha.1.of_edge ha.2 hqb⟩

lemma Path.map {β : Type} {edge' : β → β → Prop} (f : α → β)
    (hf : ∀ p b, Reachable edge entry p → edge p b → edge' (f p) (f b))
    (h : Path edge entry b trail) : Path edge' (f entry) (f b) (trail.map f) := by
  induction h with
  | start => exact .start
  | step before next ih => exact .step ih (hf _ _ ⟨_, before⟩ next)

lemma Path.congr {edge' : α → α → Prop}
    (h : ∀ p b, Reachable edge entry p → (edge p b ↔ edge' p b)) :
    Path edge entry b trail ↔ Path edge' entry b trail := by
  constructor
  · intro hpath
    induction hpath with
    | start => exact .start
    | step before next ih => exact .step ih ((h _ _ ⟨_, before⟩).mp next)
  · intro hpath
    induction hpath with
    | start => exact .start
    | step before next ih => exact .step ih ((h _ _ ⟨_, ih⟩).mpr next)

end Paths

end SsaLowering.Proofs
