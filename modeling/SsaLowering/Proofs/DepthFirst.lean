import SsaLowering.Ir.Dominators
import SsaLowering.Proofs.Paths

/-!
# Depth-first order

The order in which a depth-first walk leaves the blocks, latest first, lists every block that can be
reached exactly once. The entry comes first, and every other block comes behind one of its
predecessors: this is all that the computation of dominators needs of the order.
-/

namespace SsaLowering.Proofs

open Ir List

variable {walk : Walk} {roots : List Block} {bound : Nat} {block : Block}

/-- Control may go from one block to the other. -/
def Edge (f : Function) (source target : Block) : Prop :=
  target ∈ f.successors source

/-- Each block is a root or comes after a predecessor. -/
def Parented (succs : Block → List Block) (roots blocks : List Block) : Prop :=
  ∀ before x after, blocks = before ++ x :: after → x ∈ roots ∨ ∃ p ∈ before, x ∈ succs p

/-- What a walk from some roots adds to what it has seen before. -/
structure Explores (succs : Block → List Block) (roots : List Block) (walk walk' : Walk)
    (fresh : List Block) : Prop where
  left_eq : walk'.left = fresh ++ walk.left
  visited_iff : ∀ x, x ∈ walk'.visited ↔ x ∈ fresh ∨ x ∈ walk.visited
  nodup : fresh.Nodup
  unseen : ∀ x ∈ fresh, x ∉ walk.visited
  roots_visited : ∀ x ∈ roots, x ∈ walk'.visited
  closed : ∀ x ∈ fresh, ∀ y ∈ succs x, y ∈ walk'.visited
  parented : Parented succs roots fresh

section Walks

variable {succs : Block → List Block}

lemma Explores.none (h : ∀ x ∈ roots, x ∈ walk.visited) : Explores succs roots walk walk [] where
  left_eq := rfl
  visited_iff := by simp
  nodup := nodup_nil
  unseen := by simp
  roots_visited := h
  closed := by simp
  parented := by
    intro before x after heq
    simp at heq

lemma Explores.trans {walk1 walk2 : Walk} {root : Block} {fresh1 fresh2 : List Block}
    (h1 : Explores succs [root] walk walk1 fresh1) (h2 : Explores succs roots walk1 walk2 fresh2) :
    Explores succs (root :: roots) walk walk2 (fresh2 ++ fresh1) where
  left_eq := by rw [h2.left_eq, h1.left_eq, append_assoc]
  visited_iff x := by
    rw [h2.visited_iff, h1.visited_iff, mem_append]
    tauto
  nodup := by
    refine nodup_append.mpr ⟨h2.nodup, h1.nodup, ?_⟩
    rintro x hx2 y hx1 rfl
    exact h2.unseen x hx2 ((h1.visited_iff x).mpr (.inl hx1))
  unseen x hx := by
    rcases mem_append.mp hx with hx | hx
    · exact fun hseen => h2.unseen x hx ((h1.visited_iff x).mpr (.inr hseen))
    · exact h1.unseen x hx
  roots_visited x hx := by
    rcases mem_cons.mp hx with rfl | hx
    · exact (h2.visited_iff x).mpr (.inr (h1.roots_visited x mem_cons_self))
    · exact h2.roots_visited x hx
  closed x hx y hy := by
    rcases mem_append.mp hx with hx | hx
    · exact h2.closed x hx y hy
    · exact (h2.visited_iff y).mpr (.inr (h1.closed x hx y hy))
  parented := by
    intro before x after heq
    rcases append_eq_append_iff.mp heq with ⟨cut, rfl, hcut⟩ | ⟨cut, hcut, heq'⟩
    · rcases h1.parented cut x after hcut with hroot | ⟨p, hp, hpx⟩
      · exact .inl (by simp_all)
      · exact .inr ⟨p, mem_append_right _ hp, hpx⟩
    · cases cut with
      | nil =>
        rcases h1.parented [] x after (by simpa using heq'.symm) with hroot | ⟨p, hp, -⟩
        · exact .inl (by simp_all)
        · simp at hp
      | cons y cut =>
        obtain ⟨rfl, -⟩ : x = y ∧ after = cut ++ fresh1 := by simpa using heq'
        rcases h2.parented before x cut hcut with hroot | hparent
        · exact .inl (mem_cons_of_mem _ hroot)
        · exact .inr hparent

def unseenBelow (bound : Nat) (walk : Walk) : Nat :=
  ((Finset.range bound).filter fun i => Block.mk i ∉ walk.visited).card

lemma unseenBelow_mono {walk' : Walk} (h : ∀ x ∈ walk.visited, x ∈ walk'.visited) :
    unseenBelow bound walk' ≤ unseenBelow bound walk := by
  apply Finset.card_le_card
  intro i hi
  simp only [Finset.mem_filter] at hi ⊢
  exact ⟨hi.1, fun hseen => hi.2 (h _ hseen)⟩

lemma unseenBelow_enter (hb : block ∉ walk.visited) (hlt : block.id < bound) :
    unseenBelow bound { walk with visited := block :: walk.visited } < unseenBelow bound walk := by
  apply Finset.card_lt_card
  refine ⟨fun i hi => ?_, fun hsub => ?_⟩
  · simp only [Finset.mem_filter] at hi ⊢
    exact ⟨hi.1, fun hseen => hi.2 (mem_cons_of_mem _ hseen)⟩
  · have hmem : block.id ∈ (Finset.range bound).filter fun i => Block.mk i ∉ walk.visited := by
      simp [hlt, hb]
    have := hsub hmem
    simp at this

lemma foldl_visit_explores {fuel : Nat} (hvisit : ∀ walk block, unseenBelow bound walk < fuel →
      ∃ fresh, Explores succs [block] walk (Walk.visit succs fuel walk block) fresh)
    (roots : List Block) (walk : Walk) (hfuel : unseenBelow bound walk < fuel) :
    ∃ fresh, Explores succs roots walk (roots.foldl (Walk.visit succs fuel) walk) fresh := by
  induction roots generalizing walk with
  | nil => exact ⟨[], .none (by simp)⟩
  | cons root roots ih =>
    obtain ⟨fresh1, h1⟩ := hvisit walk root hfuel
    have hless : unseenBelow bound (Walk.visit succs fuel walk root) < fuel :=
      (unseenBelow_mono fun x hx => (h1.visited_iff x).mpr (.inr hx)).trans_lt hfuel
    obtain ⟨fresh2, h2⟩ := ih _ hless
    exact ⟨fresh2 ++ fresh1, h1.trans h2⟩

/-- A block is left behind everything that was first seen below it. -/
lemma Explores.leave {explored : Walk} {fresh : List Block} (hb : block ∉ walk.visited)
    (h : Explores succs (succs block) { walk with visited := block :: walk.visited } explored fresh) :
    Explores succs [block] walk { explored with left := block :: explored.left }
      (block :: fresh) where
  left_eq := by simp [h.left_eq]
  visited_iff x := by
    rw [h.visited_iff]
    simp only [mem_cons]
    tauto
  nodup := by
    refine nodup_cons.mpr ⟨fun hmem => ?_, h.nodup⟩
    exact h.unseen block hmem mem_cons_self
  unseen x hx := by
    rcases mem_cons.mp hx with rfl | hx
    · exact hb
    · exact fun hseen => h.unseen x hx (mem_cons_of_mem _ hseen)
  roots_visited x hx := by
    obtain rfl := mem_singleton.mp hx
    exact (h.visited_iff x).mpr (.inr mem_cons_self)
  closed x hx y hy := by
    rcases mem_cons.mp hx with rfl | hx
    · exact h.roots_visited y hy
    · exact h.closed x hx y hy
  parented := by
    intro before x after heq
    cases before with
    | nil =>
      obtain ⟨rfl, -⟩ := List.cons.inj heq
      exact .inl mem_cons_self
    | cons y before =>
      obtain ⟨rfl, hrest⟩ := List.cons.inj heq
      rcases h.parented before x after hrest with hroot | ⟨p, hp, hpx⟩
      · exact .inr ⟨block, mem_cons_self, hroot⟩
      · exact .inr ⟨p, mem_cons_of_mem _ hp, hpx⟩

/-- Blocks from `bound` on lead nowhere, so a walk enters fewer than `bound` others before it. -/
lemma visit_explores (hbound : ∀ block : Block, bound ≤ block.id → succs block = []) (fuel : Nat)
    (walk : Walk) (block : Block) (hfuel : unseenBelow bound walk < fuel) :
    ∃ fresh, Explores succs [block] walk (Walk.visit succs fuel walk block) fresh := by
  induction fuel generalizing walk block with
  | zero => omega
  | succ fuel ih =>
    unfold Walk.visit
    by_cases hb : block ∈ walk.visited
    · rw [if_pos hb]
      exact ⟨[], .none (by simpa using hb)⟩
    · rw [if_neg hb]
      rcases Nat.lt_or_ge block.id bound with hlt | hge
      · have hless := unseenBelow_enter hb hlt
        obtain ⟨fresh, h⟩ := foldl_visit_explores ih (succs block)
          { walk with visited := block :: walk.visited } (by omega)
        exact ⟨block :: fresh, h.leave hb⟩
      · have hnil := hbound block hge
        have h : Explores succs (succs block) { walk with visited := block :: walk.visited }
            { walk with visited := block :: walk.visited } [] := .none (by simp [hnil])
        refine ⟨[block], ?_⟩
        simpa [hnil] using h.leave hb

lemma Parented.reachable {entry : Block} {blocks : List Block} (h : Parented succs roots blocks)
    (hroots : ∀ x ∈ roots, Reachable (fun p b => b ∈ succs p) entry x) :
    ∀ x ∈ blocks, Reachable (fun p b => b ∈ succs p) entry x := by
  have hall : ∀ n before x after, before.length = n → blocks = before ++ x :: after →
      Reachable (fun p b => b ∈ succs p) entry x := by
    intro n
    induction n using Nat.strong_induction_on with
    | _ n ih =>
      intro before x after hlen heq
      rcases h before x after heq with hroot | ⟨p, hp, hpx⟩
      · exact hroots x hroot
      · obtain ⟨l, r, rfl⟩ := append_of_mem hp
        have hp := ih l.length (by simp at hlen; omega) l p (r ++ x :: after) rfl (by simp [heq])
        exact hp.step hpx
  intro x hx
  obtain ⟨before, after, heq⟩ := append_of_mem hx
  exact hall before.length before x after rfl heq

end Walks

lemma successors_of_size_le {f : Function} (h : f.blocks.size ≤ block.id) :
    f.successors block = [] := by
  have hnone : f.block? block = none := Array.getElem?_eq_none h
  simp [Function.successors, Function.terminator?, Function.insts, hnone]

/-- The order of a function lists the blocks that can be reached, each once, behind a predecessor. -/
structure OrderOf (f : Function) (entry : Block) (order : List Block) : Prop where
  mem_iff : ∀ block, block ∈ order ↔ Reachable (Edge f) entry block
  nodup : order.Nodup
  head_eq : order.head? = some entry
  parented : Parented f.successors [entry] order

theorem reversePostorder_orderOf {f : Function} {entry : Block}
    (hentry : f.entry? = some entry) :
    OrderOf f entry (Dominators.reversePostorder f) := by
  obtain ⟨fresh, h⟩ := @visit_explores f.blocks.size f.successors
    (fun _ => successors_of_size_le) (f.blocks.size + 1) {} entry (by
      have := Finset.card_filter_le (Finset.range f.blocks.size)
        (fun i => Block.mk i ∉ ([] : List Block))
      rw [Finset.card_range] at this
      exact Nat.lt_succ_of_le this)
  have horder : Dominators.reversePostorder f = fresh := by
    simp [Dominators.reversePostorder, hentry, h.left_eq]
  have hvisited : ∀ x, x ∈ (Walk.visit f.successors (f.blocks.size + 1) {} entry).visited
      ↔ x ∈ fresh := by
    intro x
    rw [h.visited_iff]
    simp
  have hmem : entry ∈ fresh := (hvisited entry).mp (h.roots_visited entry mem_cons_self)
  rw [horder]
  refine ⟨fun block => ⟨fun hb => ?_, fun hb => ?_⟩, h.nodup, ?_, h.parented⟩
  · exact h.parented.reachable (by simpa using Reachable.at_entry) block hb
  · refine hb.induction (motive := (· ∈ fresh)) hmem fun p b _ next hp => ?_
    exact (hvisited b).mp (h.closed p hp b next)
  · obtain ⟨x, rest, rfl⟩ := exists_cons_of_ne_nil (ne_nil_of_mem hmem)
    rcases h.parented [] x rest rfl with hroot | ⟨p, hp, -⟩
    · simpa using hroot
    · simp at hp

end SsaLowering.Proofs
