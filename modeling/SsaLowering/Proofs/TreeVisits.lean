import SsaLowering.Ssa.Renaming
import SsaLowering.Proofs.PhiPlacement

/-!
# The walk over the dominator tree as a list of visits

Renaming walks over the dominator tree. The walk is the same as visiting blocks one after the other
in some list, where each block comes behind its immediate dominator and takes over what that block
left the slots holding.
-/

namespace SsaLowering.Proofs

open Ir Ssa List

variable (scene : Scene)

/-- Renames one block; returns what the slots hold at its end. -/
def visitBlock (held : Held) (walk : Renaming) (b : Block) : Held × Renaming :=
  let state := (walk.function.insts b).foldl (renameInst scene) (held, walk)
  (state.1, (state.2.function.successors b).foldl (fillEdge scene state.1 b) state.2)

lemma renameTree_succ (fuel : Nat) (held : Held) (walk : Renaming) (b : Block) :
    renameTree scene (fuel + 1) held walk b =
      (scene.dominators.children b).foldl
        (renameTree scene fuel (visitBlock scene held walk b).1) (visitBlock scene held walk b).2 := by
  rfl

def runVisits (visits : List (Block × Held)) (walk : Renaming) : Renaming :=
  visits.foldl (fun walk visit => (visitBlock scene visit.2 walk visit.1).2) walk

lemma runVisits_append (first second : List (Block × Held)) (walk : Renaming) :
    runVisits scene (first ++ second) walk =
      runVisits scene second (runVisits scene first walk) := by
  rw [runVisits, foldl_append]
  rfl

/-- Each visit is one of the roots, or takes over from an earlier visit to the immediate
dominator. -/
def Descends (walk : Renaming) (roots visits : List (Block × Held)) : Prop :=
  ∀ before c held after, visits = before ++ (c, held) :: after →
    (c, held) ∈ roots ∨ ∃ before' d above between, before = before' ++ (d, above) :: between ∧
      scene.dominators.idom c = some d ∧
      held = (visitBlock scene above (runVisits scene before' walk) d).1

variable {scene}

lemma Descends.append {walk : Renaming} {roots roots' first second : List (Block × Held)}
    (h : Descends scene walk roots first)
    (h' : Descends scene (runVisits scene first walk) roots' second) :
    Descends scene walk (roots ++ roots') (first ++ second) := by
  intro before c held after heq
  rcases append_eq_append_iff.mp heq with ⟨rest, rfl, hsecond⟩ | ⟨rest, hfirst, hafter⟩
  · rcases h' rest c held after hsecond with hroot | ⟨before', d, above, between, rfl, hidom, hheld⟩
    · exact .inl (mem_append_right _ hroot)
    · refine .inr ⟨first ++ before', d, above, between, by rw [append_assoc], hidom, ?_⟩
      rw [runVisits_append]
      exact hheld
  · cases rest with
    | nil =>
      rcases h' [] c held after hafter.symm with hroot | ⟨before', d, above, between, hnil, -⟩
      · exact .inl (mem_append_right _ hroot)
      · simp at hnil
    | cons visit rest =>
      obtain ⟨rfl, rfl⟩ := List.cons.inj hafter
      exact (h before c held rest hfirst).imp_left (mem_append_left _)

lemma Descends.cons {walk : Renaming} {b : Block} {held : Held}
    {visits roots : List (Block × Held)}
    (hroots : ∀ visit ∈ roots, scene.dominators.idom visit.1 = some b ∧
      visit.2 = (visitBlock scene held walk b).1)
    (h : Descends scene (visitBlock scene held walk b).2 roots visits) :
    Descends scene walk [(b, held)] ((b, held) :: visits) := by
  intro before c held' after heq
  cases before with
  | nil =>
    obtain ⟨hhead, -⟩ := List.cons.inj heq
    exact .inl (hhead ▸ mem_cons_self)
  | cons visit before =>
    obtain ⟨rfl, htail⟩ := List.cons.inj heq
    refine .inr ?_
    rcases h before c held' after htail with hroot | ⟨before', d, above, between, rfl, hidom, hheld⟩
    · obtain ⟨hidom, hheld⟩ := hroots _ hroot
      exact ⟨[], b, held, before, rfl, hidom, hheld⟩
    · exact ⟨(b, held) :: before', d, above, between, rfl, hidom, hheld⟩

section Linear

variable {p : Function} {entry : Block}

/-- What a list of visits from some roots covers. -/
structure Covers (scene : Scene) (p : Function) (entry : Block) (walk : Renaming)
    (roots visits : List (Block × Held)) : Prop where
  descends : Descends scene walk roots visits
  nodup : (visits.map Prod.fst).Nodup
  mem_iff : ∀ x, x ∈ visits.map Prod.fst ↔
    Reached p entry x ∧ ∃ root ∈ roots, Dominates (Edge p) entry root.1 x

lemma foldl_renameTree_visits {fuel : Nat} {held : Held}
    (htree : ∀ (c : Block) (walk : Renaming), Reached p entry c →
      scene.dominators.order.length < fuel + scene.dominators.order.idxOf c →
        ∃ visits, renameTree scene fuel held walk c = runVisits scene visits walk ∧
          Covers scene p entry walk [(c, held)] visits)
    (blocks : List Block) (hnodup : blocks.Nodup) (hreach : ∀ c ∈ blocks, Reached p entry c)
    (hfuel : ∀ c ∈ blocks,
      scene.dominators.order.length < fuel + scene.dominators.order.idxOf c)
    (happart : ∀ c ∈ blocks, ∀ c' ∈ blocks, ∀ x, Reached p entry x →
      Dominates (Edge p) entry c x → Dominates (Edge p) entry c' x → c = c')
    (walk : Renaming) :
    ∃ visits, blocks.foldl (renameTree scene fuel held) walk = runVisits scene visits walk ∧
      Covers scene p entry walk (blocks.map (·, held)) visits := by
  induction blocks generalizing walk with
  | nil =>
    refine ⟨[], rfl, fun before c held after heq => ?_, nodup_nil, by simp⟩
    cases before <;> cases heq
  | cons c blocks ih =>
    obtain ⟨hc, hrest⟩ := nodup_cons.mp hnodup
    obtain ⟨first, hfirst, h1⟩ := htree c walk (hreach c mem_cons_self)
      (hfuel c mem_cons_self)
    obtain ⟨second, hsecond, h2⟩ := ih hrest (fun x hx => hreach x (mem_cons_of_mem _ hx))
      (fun x hx => hfuel x (mem_cons_of_mem _ hx))
      (fun x hx y hy => happart x (mem_cons_of_mem _ hx) y (mem_cons_of_mem _ hy))
      (runVisits scene first walk)
    refine ⟨first ++ second, ?_, h1.descends.append h2.descends, ?_, fun x => ?_⟩
    · rw [foldl_cons, hfirst, hsecond, runVisits_append]
    · rw [map_append]
      refine nodup_append.mpr ⟨h1.nodup, h2.nodup, ?_⟩
      rintro x hx y hy rfl
      obtain ⟨hreachx, r, hr, hdom⟩ := (h1.mem_iff x).mp hx
      obtain rfl := mem_singleton.mp hr
      obtain ⟨-, r', hr', hdom'⟩ := (h2.mem_iff x).mp hy
      obtain ⟨c', hc', rfl⟩ := mem_map.mp hr'
      exact hc (happart c mem_cons_self c' (mem_cons_of_mem _ hc') x hreachx hdom hdom' ▸
        hc')
    · rw [map_append, mem_append, h1.mem_iff, h2.mem_iff, map_cons]
      constructor
      · rintro (⟨hx, r, hr, hdom⟩ | ⟨hx, r, hr, hdom⟩)
        · exact ⟨hx, r, mem_singleton.mp hr ▸ mem_cons_self, hdom⟩
        · exact ⟨hx, r, mem_cons_of_mem _ hr, hdom⟩
      · rintro ⟨hx, r, hr, hdom⟩
        rcases mem_cons.mp hr with rfl | hr
        · exact .inl ⟨hx, _, mem_cons_self, hdom⟩
        · exact .inr ⟨hx, r, hr, hdom⟩

lemma renameTree_visits (hp : Pruned p entry) (hd : DominatorsOf p entry scene.dominators)
    (fuel : Nat) (held : Held) (walk : Renaming) (b : Block) (hb : Reached p entry b)
    (hfuel : scene.dominators.order.length < fuel + scene.dominators.order.idxOf b) :
    ∃ visits, renameTree scene fuel held walk b = runVisits scene visits walk ∧
      Covers scene p entry walk [(b, held)] visits := by
  induction fuel generalizing held walk b with
  | zero =>
    have := idxOf_lt_length_of_mem ((hd.mem_order_iff b).mpr hb)
    omega
  | succ fuel ih =>
    have hidom : ∀ c ∈ scene.dominators.children b, scene.dominators.idom c = some b :=
      fun c hc => (hd.children_iff b c).mp hc
    have hlt : ∀ c ∈ scene.dominators.children b,
        scene.dominators.order.length < fuel + scene.dominators.order.idxOf c := by
      intro c hc
      have := hd.idxOf_lt hp.predsAgree (hidom c hc)
      omega
    have hreach : ∀ c ∈ scene.dominators.children b, Reached p entry c :=
      fun c hc => ((hd.idom_iff c b).mp (hidom c hc)).1
    obtain ⟨visits, heq, h⟩ := foldl_renameTree_visits
      (fun c walk' hc hfuel => ih (visitBlock scene held walk b).1 walk' c hc hfuel)
      (scene.dominators.children b) (hd.children_nodup b) hreach hlt
      (fun c hc c' hc' x hx hcx hcx' =>
        hd.children_apart hp.predsAgree (hidom c hc) (hidom c' hc') hx hcx hcx')
      (visitBlock scene held walk b).2
    refine ⟨(b, held) :: visits, ?_, h.descends.cons fun visit hvisit => ?_, ?_, fun x => ?_⟩
    · rw [renameTree_succ, heq]
      rfl
    · obtain ⟨c, hc, rfl⟩ := mem_map.mp hvisit
      exact ⟨hidom c hc, rfl⟩
    · refine nodup_cons.mpr ⟨fun hmem => ?_, h.nodup⟩
      obtain ⟨-, r, hr, hdom⟩ := (h.mem_iff b).mp hmem
      obtain ⟨c, hc, rfl⟩ := mem_map.mp hr
      obtain ⟨-, hbc⟩ := (hd.idom_iff c b).mp (hidom c hc)
      exact hbc.1.2 (hbc.1.1.antisymm hdom hb)
    · rw [map_cons, mem_cons, h.mem_iff]
      constructor
      · rintro (rfl | ⟨hx, r, hr, hdom⟩)
        · exact ⟨hb, _, mem_cons_self, .refl x⟩
        · obtain ⟨c, hc, rfl⟩ := mem_map.mp hr
          obtain ⟨-, hbc⟩ := (hd.idom_iff c b).mp (hidom c hc)
          exact ⟨hx, _, mem_cons_self, hbc.1.1.trans hdom⟩
      · rintro ⟨hx, r, hr, hdom⟩
        obtain rfl := mem_singleton.mp hr
        refine (hd.eq_or_below_child hp.predsAgree hx hdom).imp_right fun ⟨c, hc, hcx⟩ => ?_
        exact ⟨hx, _, mem_map.mpr ⟨c, (hd.children_iff b c).mpr hc, rfl⟩, hcx⟩

end Linear

end SsaLowering.Proofs
