import SsaLowering.Ir.Dominators
import SsaLowering.Proofs.Paths

/-!
# Immediate dominators by repeated improvement

The computation of immediate dominators works on places in an order in which every place but the
first comes behind one of its predecessors. Two facts carry it. A place never loses a dominator:
every strict dominator of a place dominates the parent found for it. And after `m` passes the
parent of a place lies on every path to it that goes back to an earlier or equal place fewer than
`m` times. A path without repetitions goes back less often than there are places, so that many
passes find the immediate dominators, and a further pass changes nothing.
-/

namespace SsaLowering.Proofs

open Ir List

variable {trail ps : List Nat} {i d j fuel m k c : Nat}

/-- An edge between places, as the lists of predecessors have it. -/
def PlaceEdge (preds : List (List Nat)) (p i : Nat) : Prop :=
  ∃ ps, preds[i]? = some ps ∧ p ∈ ps

/-- Every place but the first comes behind one of its predecessors. -/
structure Ranked (preds : List (List Nat)) : Prop where
  pos : 0 < preds.length
  lt : ∀ p i, PlaceEdge preds p i → p < preds.length
  parent : ∀ i, 0 < i → i < preds.length → ∃ p < i, PlaceEdge preds p i

/-- How often a path, listed from its end, goes from a place to one that is not behind it. -/
def retreats : List Nat → Nat
  | i :: p :: rest => (if p < i then 0 else 1) + retreats (p :: rest)
  | _ => 0

lemma retreats_lt_length (h : trail ≠ []) : retreats trail < trail.length := by
  fun_induction retreats trail with
  | case1 i p rest ih =>
    have hrest := ih (by simp)
    simp only [length_cons] at hrest ⊢
    split <;> omega
  | case2 trail hshort => exact length_pos_of_ne_nil h

lemma retreats_cons_le (i : Nat) (trail : List Nat) : retreats trail ≤ retreats (i :: trail) := by
  cases trail with
  | nil => simp [retreats]
  | cons p rest => simp [retreats]

lemma retreats_suffix {upper : List Nat} (h : upper <:+ trail) :
    retreats upper ≤ retreats trail := by
  obtain ⟨lower, rfl⟩ := h
  induction lower with
  | nil => exact le_rfl
  | cons i lower ih => exact ih.trans (retreats_cons_le i _)

section Places

variable {preds : List (List Nat)}

lemma PlaceEdge.lt_length {p : Nat} (h : PlaceEdge preds p i) : i < preds.length := by
  obtain ⟨ps, hps, -⟩ := h
  exact (List.getElem?_eq_some_iff.mp hps).1

lemma Ranked.path_lt (hr : Ranked preds) (h : Path (PlaceEdge preds) 0 i trail) :
    ∀ x ∈ trail, x < preds.length := by
  induction h with
  | start => simpa using hr.pos
  | step before next ih =>
    intro x hx
    rcases mem_cons.mp hx with rfl | hx
    · exact next.lt_length
    · exact ih x hx

lemma Ranked.increasing (hr : Ranked preds) (i : Nat) (hi : i < preds.length) :
    ∃ trail, Path (PlaceEdge preds) 0 i trail ∧ ∀ x ∈ trail, x ≤ i := by
  induction i using Nat.strong_induction_on with
  | _ i ih =>
    rcases Nat.eq_zero_or_pos i with rfl | hpos
    · exact ⟨[0], .start, by simp⟩
    · obtain ⟨p, hp, hedge⟩ := hr.parent i hpos hi
      obtain ⟨trail, hpath, hle⟩ := ih p hp (hp.trans hi)
      refine ⟨i :: trail, hpath.step hedge, fun x hx => ?_⟩
      rcases mem_cons.mp hx with rfl | hx
      · exact le_rfl
      · exact (hle x hx).trans hp.le

lemma Ranked.reachable (hr : Ranked preds) (hi : i < preds.length) :
    Reachable (PlaceEdge preds) 0 i := by
  obtain ⟨trail, hpath, -⟩ := hr.increasing i hi
  exact ⟨trail, hpath⟩

lemma Ranked.le_of_dominates (hr : Ranked preds) (hi : i < preds.length)
    (h : Dominates (PlaceEdge preds) 0 d i) : d ≤ i := by
  obtain ⟨trail, hpath, hle⟩ := hr.increasing i hi
  exact hle d (h trail hpath)

/-- A place has a dominator so far. -/
def Settled (found : Array (Option Nat)) (i : Nat) : Prop :=
  ∃ j, found[i]? = some (some j)

/-- Parents come before their places, and no dominator is lost in going to a parent. -/
structure Approximates (preds : List (List Nat)) (found : Array (Option Nat)) : Prop where
  size_eq : found.size = preds.length
  root : found[0]? = some (some 0)
  lower : ∀ i j : Nat, 0 < i → found[i]? = some (some j) → j < i
  settled : ∀ i j : Nat, found[i]? = some (some j) → Settled found j
  keeps : ∀ i j d : Nat, 0 < i → found[i]? = some (some j) →
    StrictlyDominates (PlaceEdge preds) 0 d i → Dominates (PlaceEdge preds) 0 d j

/-- A place is met in going from parent to parent. -/
inductive Ancestor (found : Array (Option Nat)) : Nat → Nat → Prop where
  | refl (i : Nat) : Ancestor found i i
  | step {i j d : Nat} (hpos : 0 < i) (parent : found[i]? = some (some j))
      (rest : Ancestor found j d) : Ancestor found i d

variable {found : Array (Option Nat)}

lemma Ancestor.trans (hij : Ancestor found i j) (hjd : Ancestor found j d) :
    Ancestor found i d := by
  induction hij with
  | refl => exact hjd
  | step hpos parent _ ih => exact .step hpos parent (ih hjd)

lemma Ancestor.le (h : Approximates preds found) (hid : Ancestor found i d) : d ≤ i := by
  induction hid with
  | refl => exact le_rfl
  | step hpos parent _ ih => exact ih.trans (h.lower _ _ hpos parent).le

lemma Settled.lt (h : Approximates preds found) (hi : Settled found i) : i < preds.length := by
  obtain ⟨j, hj⟩ := hi
  rw [← h.size_eq]
  exact (Array.getElem?_eq_some_iff.mp hj).1

/-- Two chains of parents meet, in a place that every common dominator dominates. -/
lemma intersect_spec (hr : Ranked preds) (h : Approximates preds found) (fuel a b : Nat)
    (ha : Settled found a) (hb : Settled found b) (hfuel : a + b < fuel) :
    ∃ c, Dominators.intersect found fuel a b = .ok c ∧ Settled found c ∧
      Ancestor found a c ∧ Ancestor found b c ∧
      ∀ d, Dominates (PlaceEdge preds) 0 d a → Dominates (PlaceEdge preds) 0 d b →
        Dominates (PlaceEdge preds) 0 d c := by
  induction fuel generalizing a b with
  | zero => omega
  | succ fuel ih =>
    unfold Dominators.intersect
    by_cases heq : a = b
    · subst heq
      rw [if_pos rfl]
      exact ⟨a, rfl, ha, .refl a, .refl a, fun _ hd _ => hd⟩
    · rw [if_neg heq]
      -- a place that dominates the lower of the two cannot be the higher one
      by_cases hlt : b < a
      · rw [if_pos hlt]
        obtain ⟨next, hnext⟩ := ha
        have hlow := h.lower a next (by omega) hnext
        obtain ⟨c, hc, hset, hac, hbc, hdom⟩ := ih next b (h.settled a next hnext) hb (by omega)
        refine ⟨c, by simpa [hnext] using hc, hset, .step (by omega) hnext hac, hbc,
          fun d hda hdb => hdom d ?_ hdb⟩
        have hle := hr.le_of_dominates (hb.lt h) hdb
        exact h.keeps a next d (by omega) hnext ⟨hda, by omega⟩
      · rw [if_neg hlt]
        obtain ⟨next, hnext⟩ := hb
        have hlow := h.lower b next (by omega) hnext
        obtain ⟨c, hc, hset, hac, hbc, hdom⟩ := ih a next ha (h.settled b next hnext) (by omega)
        refine ⟨c, by simpa [hnext] using hc, hset, hac, .step (by omega) hnext hbc,
          fun d hda hdb => hdom d hda ?_⟩
        have hle := hr.le_of_dominates (ha.lt h) hda
        exact h.keeps b next d (by omega) hnext ⟨hdb, by omega⟩

def joinPlace (found : Array (Option Nat)) (fuel : Nat) (best : Option Nat) (pred : Nat) :
    Except Fault (Option Nat) :=
  match found[pred]? with
  | some (some _) =>
    match best with
    | none => .ok (some pred)
    | some other => (Dominators.intersect found fuel pred other).map some
  | _ => .ok best

/-- A place is where the settled ones among some predecessors meet. -/
structure MeetOf (preds : List (List Nat)) (found : Array (Option Nat)) (ps : List Nat) (c : Nat) :
    Prop where
  settled : Settled found c
  above : ∀ p ∈ ps, Settled found p → Ancestor found p c
  keeps : ∀ d, (∀ p ∈ ps, Settled found p → Dominates (PlaceEdge preds) 0 d p) →
    Dominates (PlaceEdge preds) 0 d c

/-- What the predecessors that were looked at come to. -/
def JoinedSoFar (preds : List (List Nat)) (found : Array (Option Nat)) (ps : List Nat) :
    Option Nat → Prop
  | none => ∀ p ∈ ps, ¬ Settled found p
  | some c => MeetOf preds found ps c

lemma joinPlace_spec (hr : Ranked preds) (h : Approximates preds found)
    (hfuel : 2 * preds.length < fuel) {best : Option Nat}
    (hbest : JoinedSoFar preds found ps best) (p : Nat) :
    ∃ best', joinPlace found fuel best p = .ok best' ∧ JoinedSoFar preds found (ps ++ [p]) best' := by
  have hlast : ∀ q ∈ ps ++ [p], q ∈ ps ∨ q = p := by simp
  by_cases hp : Settled found p
  · obtain ⟨j, hj⟩ := hp
    unfold joinPlace
    rw [hj]
    cases best with
    | none =>
      refine ⟨some p, rfl, ⟨j, hj⟩, fun q hq hset => ?_, fun d hd => hd p (by simp) ⟨j, hj⟩⟩
      rcases hlast q hq with hq | rfl
      · exact absurd hset (hbest q hq)
      · exact .refl q
    | some other =>
      have hlt1 := Settled.lt h ⟨j, hj⟩
      have hlt2 := hbest.settled.lt h
      obtain ⟨c, hc, hset, hpc, hoc, hdom⟩ :=
        intersect_spec hr h fuel p other ⟨j, hj⟩ hbest.settled (by omega)
      refine ⟨some c, by simp [hc, Except.map], hset, fun q hq hqset => ?_, fun d hd => ?_⟩
      · rcases hlast q hq with hq | rfl
        · exact (hbest.above q hq hqset).trans hoc
        · exact hpc
      · refine hdom d (hd p (by simp) ⟨j, hj⟩) (hbest.keeps d fun q hq => hd q ?_)
        exact mem_append_left _ hq
  · refine ⟨best, ?_, ?_⟩
    · unfold joinPlace
      split
      · exact absurd ⟨_, ‹_›⟩ hp
      · rfl
    · cases best with
      | none =>
        intro q hq
        rcases hlast q hq with hq | rfl
        · exact hbest q hq
        · exact hp
      | some c =>
        refine ⟨hbest.settled, fun q hq hset => ?_, fun d hd => hbest.keeps d fun q hq => hd q ?_⟩
        · rcases hlast q hq with hq | rfl
          · exact hbest.above q hq hset
          · exact absurd hset hp
        · exact mem_append_left _ hq

lemma candidate_spec (hr : Ranked preds) (h : Approximates preds found)
    (hfuel : 2 * preds.length < fuel) (ps : List Nat) :
    ∃ best, Dominators.candidate found fuel ps = .ok best ∧ JoinedSoFar preds found ps best := by
  have hfold : ∀ ps seen best, JoinedSoFar preds found seen best →
      ∃ best', ps.foldlM (joinPlace found fuel) best = .ok best' ∧
        JoinedSoFar preds found (seen ++ ps) best' := by
    intro ps
    induction ps with
    | nil => exact fun seen best hbest => ⟨best, rfl, by simpa using hbest⟩
    | cons p ps ih =>
      intro seen best hbest
      obtain ⟨next, hnext, hjoined⟩ := joinPlace_spec hr h hfuel hbest p
      obtain ⟨best', hbest', hall⟩ := ih (seen ++ [p]) next hjoined
      refine ⟨best', ?_, by simpa using hall⟩
      rw [foldlM_cons, hnext]
      exact hbest'
  obtain ⟨best, hbest, hjoined⟩ := hfold ps [] none (by simp [JoinedSoFar])
  exact ⟨best, hbest, by simpa using hjoined⟩

/-- The state of a pass, `m` passes after the start, when it comes to place `k`. -/
structure PassState (preds : List (List Nat)) (m k : Nat) (found : Array (Option Nat)) : Prop where
  approx : Approximates preds found
  close : ∀ (i j : Nat) (trail : List Nat), 0 < i → found[i]? = some (some j) →
    Path (PlaceEdge preds) 0 i trail → retreats trail < (if i < k then m + 1 else m) → j ∈ trail
  settledBelow : ∀ i < k, Settled found i
  settledAll : 0 < m → ∀ i < preds.length, Settled found i

lemma PassState.ancestor_mem (h : PassState preds m k found) (hid : Ancestor found i d)
    (hpath : Path (PlaceEdge preds) 0 i trail)
    (hfew : ∀ x ≤ i, retreats trail < if x < k then m + 1 else m) : d ∈ trail := by
  induction hid generalizing trail with
  | refl => exact hpath.mem_self
  | @step i j d hpos parent _ ih =>
    have hj := h.close i j trail hpos parent hpath (hfew i le_rfl)
    obtain ⟨upper, hsuffix, hupper⟩ := hpath.upTo hj
    have hlow := h.approx.lower i j hpos parent
    refine hsuffix.subset (ih hupper fun x hx => ?_)
    exact (retreats_suffix hsuffix).trans_lt (hfew x (hx.trans hlow.le))

/-- Paths without repetitions go back less often than there are places. -/
lemma PassState.isIdom (hr : Ranked preds) (h : PassState preds m k found) (hm : preds.length ≤ m)
    (hpos : 0 < i) (hij : found[i]? = some (some j)) : IsIdom (PlaceEdge preds) 0 j i := by
  have hdom : Dominates (PlaceEdge preds) 0 j i := by
    intro trail hpath
    obtain ⟨short, hshort, hsub, hnodup⟩ := hpath.exists_nodup
    have hlen : short.length ≤ preds.length := by
      have hrange : short ⊆ List.range preds.length := fun x hx =>
        mem_range.mpr (hr.path_lt hshort x hx)
      simpa using (hnodup.subperm hrange).length_le
    have hfew : retreats short < short.length :=
      retreats_lt_length (ne_nil_of_mem hshort.mem_self)
    refine hsub (h.close i j short hpos hij hshort ?_)
    split <;> omega
  have hlow := h.approx.lower i j hpos hij
  exact ⟨⟨hdom, by omega⟩, fun d hd => h.approx.keeps i j d hpos hij hd⟩

lemma Settled.set (hi : Settled found i) : Settled (found.setIfInBounds k (some c)) i := by
  obtain ⟨j, hj⟩ := hi
  have hlt := (Array.getElem?_eq_some_iff.mp hj).1
  unfold Settled
  rw [Array.getElem?_setIfInBounds]
  split
  · subst_vars
    simp [hlt]
  · exact ⟨j, hj⟩

lemma getElem?_set_cases (h : (found.setIfInBounds k (some c))[i]? = some (some j)) :
    (i = k ∧ j = c) ∨ (i ≠ k ∧ found[i]? = some (some j)) := by
  rw [Array.getElem?_setIfInBounds] at h
  split at h
  · subst_vars
    split at h
    · exact .inl ⟨rfl, by simpa using h.symm⟩
    · cases h
  · exact .inr ⟨Ne.symm ‹_›, h⟩

/-- The parents of a place are settled when its turn comes, unless they are behind it in the first
pass. -/
lemma PassState.settled_of_lt {p : Nat} (h : PassState preds m k found) (hp : p < preds.length)
    (hcase : p < k ∨ 0 < m) : Settled found p := by
  rcases hcase with hlt | hpos
  · exact h.settledBelow p hlt
  · exact h.settledAll hpos p hp

lemma PassState.set (hr : Ranked preds) (h : PassState preds m k found) (hpos : 0 < k)
    (hk : k < preds.length) (hps : preds[k]? = some ps) (hc : MeetOf preds found ps c) :
    PassState preds m (k + 1) (found.setIfInBounds k (some c)) := by
  obtain ⟨p, hp, ps', hps', hmem⟩ := hr.parent k hpos hk
  obtain rfl : ps = ps' := by simpa [hps] using hps'
  have hlow : c < k :=
    ((hc.above p hmem (h.settledBelow p hp)).le h.approx).trans_lt hp
  have happrox : Approximates preds (found.setIfInBounds k (some c)) := by
    refine ⟨by simp [h.approx.size_eq], ?_, fun i j hi hij => ?_, fun i j hij => ?_,
      fun i j d hi hij hd => ?_⟩
    · rw [Array.getElem?_setIfInBounds, if_neg (by omega)]
      exact h.approx.root
    · rcases getElem?_set_cases hij with ⟨rfl, rfl⟩ | ⟨-, hij⟩
      · exact hlow
      · exact h.approx.lower i j hi hij
    · rcases getElem?_set_cases hij with ⟨rfl, rfl⟩ | ⟨-, hij⟩
      · exact hc.settled.set
      · exact (h.approx.settled i j hij).set
    · rcases getElem?_set_cases hij with ⟨rfl, rfl⟩ | ⟨-, hij⟩
      · exact hc.keeps d fun q hq _ => hd.1.of_edge hd.2 ⟨ps, hps, hq⟩
      · exact h.approx.keeps i j d hi hij hd
  refine ⟨happrox, fun i j trail hi hij hpath hfew => ?_, fun i hi => ?_,
    fun hm i hi => (h.settledAll hm i hi).set⟩
  · rcases getElem?_set_cases hij with ⟨rfl, rfl⟩ | ⟨hne, hij⟩
    · rw [if_pos (Nat.lt_succ_self i)] at hfew
      obtain ⟨rest, rfl⟩ := hpath.head_eq
      obtain ⟨q, hq, ps', hps', hqmem⟩ := hpath.before (by omega)
      obtain rfl : ps = ps' := by simpa [hps] using hps'
      obtain ⟨tail, rfl⟩ := hq.head_eq
      have hqlt : q < preds.length := hr.lt q i ⟨ps, hps, hqmem⟩
      refine mem_cons_of_mem _ ?_
      -- an edge that goes back uses up one retreat, and only such edges come from later places
      by_cases hqi : q < i
      · have hset := h.settled_of_lt hqlt (.inl hqi)
        refine h.ancestor_mem (hc.above q hqmem hset) hq fun x hx => ?_
        simp only [retreats, if_pos hqi, Nat.zero_add] at hfew
        rwa [if_pos (by omega)]
      · simp only [retreats, if_neg hqi] at hfew
        have hset := h.settled_of_lt hqlt (.inr (by omega))
        refine h.ancestor_mem (hc.above q hqmem hset) hq fun x hx => ?_
        split <;> omega
    · refine h.close i j trail hi hij hpath (hfew.trans_le ?_)
      by_cases hik : i < k
      · simp [hik, Nat.lt_succ_of_lt hik]
      · simp [hik, show ¬ i < k + 1 by omega]
  · rcases Nat.lt_succ_iff_lt_or_eq.mp hi with hi | rfl
    · exact (h.settledBelow i hi).set
    · exact ⟨c, by simp [h.approx.size_eq, hk]⟩

def improvePlace (fuel : Nat) (state : Array (Option Nat) × Bool) (entry : List Nat × Nat) :
    Except Fault (Array (Option Nat) × Bool) := do
  let best ← Dominators.candidate state.1 fuel entry.1
  if state.1[entry.2]? = some best then return state
  return (state.1.setIfInBounds entry.2 best, true)

lemma improve_eq (fuel : Nat) :
    Dominators.improve preds fuel found =
      (preds.zipIdx.drop 1).foldlM (improvePlace fuel) (found, false) := rfl

lemma setIfInBounds_getElem? {best : Option Nat} (h : found[k]? = some best) :
    found.setIfInBounds k best = found := by
  apply Array.ext_getElem?
  intro i
  rw [Array.getElem?_setIfInBounds]
  split
  · subst_vars
    rw [if_pos (Array.getElem?_eq_some_iff.mp h).1, h]
  · rfl

/-- A pass goes on by one place. If enough passes are done, the parent found is the one that was
there. -/
lemma improvePlace_spec (hr : Ranked preds) (changed : Bool) (h : PassState preds m k found)
    (hfuel : 2 * preds.length < fuel) (hpos : 0 < k) (hps : preds[k]? = some ps) :
    ∃ found' changed', improvePlace fuel (found, changed) (ps, k) = .ok (found', changed') ∧
      PassState preds m (k + 1) found' ∧ (changed' = false → found' = found ∧ changed = false) ∧
      (preds.length ≤ m → changed' = changed) := by
  have hk : k < preds.length := (List.getElem?_eq_some_iff.mp hps).1
  obtain ⟨best, hbest, hjoined⟩ := candidate_spec hr h.approx hfuel ps
  obtain ⟨p, hp, ps', hps', hmem⟩ := hr.parent k hpos hk
  obtain rfl : ps = ps' := by simpa [hps] using hps'
  cases best with
  | none => exact absurd (h.settledBelow p hp) (hjoined p hmem)
  | some c =>
    have hnext := h.set hr hpos hk hps hjoined
    by_cases heq : found[k]? = some (some c)
    · refine ⟨found, changed, ?_, ?_, fun hc => ⟨rfl, hc⟩, fun _ => rfl⟩
      · simp [improvePlace, hbest, heq, bind, Except.bind, pure, Except.pure]
      · rwa [setIfInBounds_getElem? heq] at hnext
    · refine ⟨_, true, ?_, hnext, by simp, fun hm => absurd ?_ heq⟩
      · simp [improvePlace, hbest, heq, bind, Except.bind, pure, Except.pure]
      · obtain ⟨j, hj⟩ := h.settledAll (by omega) k hk
        have hold := h.isIdom hr hm hpos hj
        have hnew : IsIdom (PlaceEdge preds) 0 c k :=
          hnext.isIdom hr hm hpos (by simp [h.approx.size_eq, hk])
        rw [hj, hold.unique hnew (hr.reachable hk)]

lemma zipIdx_drop (hps : preds[k]? = some ps) :
    preds.zipIdx.drop k = (ps, k) :: preds.zipIdx.drop (k + 1) := by
  obtain ⟨hk, hget⟩ := List.getElem?_eq_some_iff.mp hps
  rw [List.drop_eq_getElem_cons (by simpa using hk)]
  simp [hget]

lemma improve_spec (hr : Ranked preds) (h : PassState preds m 1 found)
    (hfuel : 2 * preds.length < fuel) :
    ∃ found' changed, Dominators.improve preds fuel found = .ok (found', changed) ∧
      PassState preds (m + 1) 1 found' ∧ (changed = false → found' = found) ∧
      (preds.length ≤ m → changed = false) := by
  have hrest : ∀ rest k (found : Array (Option Nat)) changed, preds.length - k = rest → 0 < k →
      k ≤ preds.length → PassState preds m k found →
      ∃ found' changed', (preds.zipIdx.drop k).foldlM (improvePlace fuel) (found, changed) =
          .ok (found', changed') ∧
        PassState preds m preds.length found' ∧
        (changed' = false → found' = found ∧ changed = false) ∧
        (preds.length ≤ m → changed' = changed) := by
    intro rest
    induction rest with
    | zero =>
      intro k found changed hrest hpos hle hstate
      obtain rfl : k = preds.length := by omega
      refine ⟨found, changed, ?_, hstate, fun hc => ⟨rfl, hc⟩, fun _ => rfl⟩
      rw [drop_of_length_le (by simp)]
      rfl
    | succ rest ih =>
      intro k found changed hrest hpos hle hstate
      have hget : preds[k]? = some preds[k] := getElem?_eq_getElem (by omega)
      obtain ⟨next, changed1, hstep, hnext, hsame, hdone⟩ :=
        improvePlace_spec hr changed hstate hfuel hpos hget
      obtain ⟨found', changed', hfold, hlast, hsame', hdone'⟩ :=
        ih (k + 1) next changed1 (by omega) (by omega) (by omega) hnext
      refine ⟨found', changed', ?_, hlast, fun hc => ?_, fun hm => ?_⟩
      · rw [zipIdx_drop hget, foldlM_cons, hstep]
        exact hfold
      · obtain ⟨rfl, hc1⟩ := hsame' hc
        exact hsame hc1
      · rw [hdone' hm, hdone hm]
  have hpos := hr.pos
  obtain ⟨found', changed, hfold, hlast, hsame, hdone⟩ :=
    hrest _ 1 found false rfl (by omega) (by omega) h
  refine ⟨found', changed, by rw [improve_eq, hfold], ?_, fun hc => (hsame hc).1, hdone⟩
  refine ⟨hlast.approx, fun i j trail hi hij hpath hfew => ?_, fun i hi => ?_,
    fun _ i hi => hlast.settledBelow i hi⟩
  · have hlt := Settled.lt hlast.approx ⟨j, hij⟩
    rw [if_neg (by omega)] at hfew
    exact hlast.close i j trail hi hij hpath (by rwa [if_pos hlt])
  · exact hlast.settledBelow i (by omega)

/-- What a pass does not change, no number of passes changes. -/
lemma PassState.of_unchanged (hr : Ranked preds) (h : PassState preds m 1 found)
    (hfuel : 2 * preds.length < fuel)
    (hsame : Dominators.improve preds fuel found = .ok (found, false)) (more : Nat) :
    PassState preds (m + more) 1 found := by
  induction more with
  | zero => exact h
  | succ more ih =>
    obtain ⟨found', changed, hpass, hnext, -⟩ := improve_spec hr ih hfuel
    rw [hsame] at hpass
    obtain ⟨rfl, -⟩ : found = found' ∧ false = changed := by simpa using hpass
    exact hnext

/-- Every place but the first has its immediate dominator as its parent. -/
structure ParentsOf (preds : List (List Nat)) (found : Array (Option Nat)) : Prop where
  size_eq : found.size = preds.length
  parent : ∀ i, 0 < i → i < preds.length →
    ∃ j, found[i]? = some (some j) ∧ IsIdom (PlaceEdge preds) 0 j i

lemma PassState.parentsOf (hr : Ranked preds) (h : PassState preds m 1 found)
    (hm : preds.length ≤ m) : ParentsOf preds found := by
  refine ⟨h.approx.size_eq, fun i hpos hi => ?_⟩
  obtain ⟨j, hj⟩ := h.settledAll (by omega) i hi
  exact ⟨j, hj, h.isIdom hr hm hpos hj⟩

lemma stabilize_spec (hr : Ranked preds) {chain : Nat} (hchain : 2 * preds.length < chain)
    (fuel m : Nat) (hfuel : preds.length < m + fuel) (hpos : 0 < fuel)
    (h : PassState preds m 1 found) :
    ∃ found', Dominators.stabilize preds chain fuel found = .ok found' ∧
      ParentsOf preds found' := by
  induction fuel generalizing m found with
  | zero => omega
  | succ fuel ih =>
    obtain ⟨next, changed, hpass, hnext, hsame, hdone⟩ := improve_spec hr h hchain
    unfold Dominators.stabilize
    rw [hpass]
    cases changed with
    | true =>
      have hm : m < preds.length := by
        by_contra hle
        simpa using hdone (by omega)
      exact ih (m + 1) (by omega) (by omega) hnext
    | false =>
      obtain rfl := hsame rfl
      exact ⟨next, rfl, (hnext.of_unchanged hr hchain hpass preds.length).parentsOf hr (by omega)⟩

lemma getElem?_start {n : Nat} (h : ((Array.replicate n (none : Option Nat)).setIfInBounds 0
    (some 0))[i]? = some (some j)) : i = 0 ∧ j = 0 := by
  rcases getElem?_set_cases h with h | ⟨-, h⟩
  · exact h
  · rw [Array.getElem?_replicate] at h
    split at h <;> simp at h

lemma PassState.start (hr : Ranked preds) :
    PassState preds 0 1 ((Array.replicate preds.length none).setIfInBounds 0 (some 0)) := by
  have hpos := hr.pos
  have hroot : ((Array.replicate preds.length (none : Option Nat)).setIfInBounds 0
      (some 0))[0]? = some (some 0) := by
    simp [hpos]
  refine ⟨⟨by simp, hroot, fun i j hi hij => ?_, fun i j hij => ?_, fun i j d hi hij => ?_⟩,
    fun i j trail hi hij => ?_, fun i hi => ?_, fun hm => absurd hm (lt_irrefl 0)⟩
  · have := (getElem?_start hij).1
    omega
  · obtain ⟨rfl, rfl⟩ := getElem?_start hij
    exact ⟨0, hroot⟩
  · have := (getElem?_start hij).1
    omega
  · have := (getElem?_start hij).1
    omega
  · obtain rfl : i = 0 := by omega
    exact ⟨0, hroot⟩

theorem stabilize_parentsOf (hr : Ranked preds) :
    ∃ found, Dominators.stabilize preds (2 * preds.length + 2)
        (preds.length * preds.length + preds.length + 2)
        ((Array.replicate preds.length none).setIfInBounds 0 (some 0)) = .ok found ∧
      ParentsOf preds found :=
  stabilize_spec hr (by omega) _ 0 (by omega) (by omega) (.start hr)

end Places

end SsaLowering.Proofs
