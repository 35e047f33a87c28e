import SsaLowering.Proofs.WellFormed

/-!
# Climbing the dominator tree

A climb from a block meets exactly the blocks that dominate it. So the test for dominance decides
dominance, and a block lies in the frontier of every block that dominates one of its predecessors
without being above its immediate dominator.
-/

namespace SsaLowering.Proofs

open Ir List

variable {f : Function} {entry : Block} {doms : Dominators} {b a c x : Block}

namespace DominatorsOf

section

variable (hd : DominatorsOf f entry doms)
include hd

lemma mem_order_iff (b : Block) : b ∈ doms.order ↔ Reached f entry b :=
  hd.order.mem_iff b

lemma isReachable_iff (b : Block) : doms.isReachable b = true ↔ Reached f entry b := by
  rw [← hd.mem_order_iff, mem_iff_getElem?, Dominators.isReachable,
    Option.isSome_iff_exists]
  exact exists_congr fun i => hd.rank_iff b i

lemma rank_eq (hb : Reached f entry b) :
    doms.rank.get b.id = some (doms.order.idxOf b) :=
  (hd.rank_iff b _).mpr (getElem?_idxOf ((hd.mem_order_iff b).mpr hb))

lemma idxOf_le (hp : PredsAgree f entry) (hb : Reached f entry b)
    (hab : Dominates (Edge f) entry a b) :
    doms.order.idxOf a ≤ doms.order.idxOf b := by
  have hget : ∀ c, Reached f entry c →
      doms.order[doms.order.idxOf c]? = some c :=
    fun c hc => getElem?_idxOf ((hd.mem_order_iff c).mpr hc)
  have hplaces := (dominates_places hd.order hp (hget a (hab.reachable hb)) (hget b hb)).mpr hab
  refine (placePreds_ranked hd.order hp).le_of_dominates ?_ hplaces
  simpa [placePreds] using idxOf_lt_length_of_mem ((hd.mem_order_iff b).mpr hb)

lemma idxOf_lt (hp : PredsAgree f entry) {d : Block} (h : doms.idom b = some d) :
    doms.order.idxOf d < doms.order.idxOf b := by
  obtain ⟨hb, hidom⟩ := (hd.idom_iff b d).mp h
  have hdr := hidom.1.1.reachable hb
  refine lt_of_le_of_ne (hd.idxOf_le hp hb hidom.1.1) fun heq => hidom.1.2 ?_
  exact (idxOf_inj ((hd.mem_order_iff d).mpr hdr)).mp heq

lemma idom_eq_none_iff (hb : Reached f entry b) : doms.idom b = none ↔ b = entry := by
  constructor
  · intro hnone
    by_contra hne
    obtain ⟨d, hidom⟩ := hd.idom_exists b hb hne
    rw [hnone] at hidom
    cases hidom
  · rintro rfl
    cases h : doms.idom b with
    | none => rfl
    | some d => exact absurd rfl ((hd.idom_iff b d).mp h).2.1.ne_entry

end

section

variable (hd : DominatorsOf f entry doms) (hp : PredsAgree f entry)
include hd hp

lemma climb_iff (fuel : Nat) (hb : Reached f entry b)
    (hfuel : doms.order.idxOf b < fuel) :
    doms.climb a (doms.order.idxOf a) fuel b = true ↔
      Dominates (Edge f) entry a b := by
  induction fuel generalizing b with
  | zero => omega
  | succ fuel ih =>
    rw [Dominators.climb]
    by_cases hba : b = a
    · subst hba
      simp [Dominates.refl b]
    rw [if_neg hba, hd.rank_eq hb, Option.any_some]
    by_cases hrank : doms.order.idxOf b < doms.order.idxOf a
    · have hnot : ¬ Dominates (Edge f) entry a b := fun h => by
        have := hd.idxOf_le hp hb h
        omega
      simp [hrank, hnot]
    rw [if_neg (by simpa using hrank)]
    cases hidom : doms.idom b with
    | none =>
      obtain rfl := (hd.idom_eq_none_iff hb).mp hidom
      have hnot : ¬ Dominates (Edge f) b a b := fun h =>
        hba (mem_singleton.mp (h _ .start)).symm
      simp [hnot]
    | some d =>
      obtain ⟨-, hdb⟩ := (hd.idom_iff b d).mp hidom
      have hlt := hd.idxOf_lt hp hidom
      rw [ih (hdb.1.1.reachable hb) (by omega), hdb.dominates_iff]
      simp [Ne.symm hba]

lemma dominates_iff (ha : Reached f entry a) :
    doms.dominates a b = true ↔
      Reached f entry b ∧ Dominates (Edge f) entry a b := by
  rw [Dominators.dominates, hd.rank_eq ha]
  rw [Bool.and_eq_true, hd.isReachable_iff]
  refine and_congr_right fun hb => hd.climb_iff hp _ hb ?_
  have := idxOf_lt_length_of_mem ((hd.mem_order_iff b).mpr hb)
  omega

lemma mem_chainBelow_iff {stop : Block} (fuel : Nat) (hb : Reached f entry b)
    (hfuel : doms.order.idxOf b < fuel) (hstop : Dominates (Edge f) entry stop b) :
    c ∈ doms.chainBelow stop fuel b ↔
      Dominates (Edge f) entry c b ∧ ¬ Dominates (Edge f) entry c stop := by
  induction fuel generalizing b with
  | zero => omega
  | succ fuel ih =>
    rw [Dominators.chainBelow, (hd.isReachable_iff b).mpr hb, Bool.not_true, Bool.false_or]
    by_cases heq : b = stop
    · subst heq
      simp
    rw [if_neg (by simpa using heq)]
    have hbelow : StrictlyDominates (Edge f) entry stop b := ⟨hstop, Ne.symm heq⟩
    obtain ⟨d, hidom⟩ := hd.idom_exists b hb hbelow.ne_entry
    obtain ⟨-, hdb⟩ := (hd.idom_iff b d).mp hidom
    have hlt := hd.idxOf_lt hp hidom
    have hnot : ¬ Dominates (Edge f) entry b stop := fun h => heq (h.antisymm hstop hb)
    simp only [hidom, mem_cons]
    rw [ih (hdb.1.1.reachable hb) (by omega) (hdb.2 stop hbelow), hdb.dominates_iff, or_and_right]
    refine or_congr_left (iff_self_and.mpr ?_)
    rintro rfl
    exact hnot

/-- What holds for a block if it holds for its immediate dominator, and for one dominator of a
block, holds for the block. -/
lemma climb_induction {d : Block} {motive : Block → Prop} (top : motive d)
    (step : ∀ c e, doms.idom c = some e → StrictlyDominates (Edge f) entry d c →
      motive e → motive c) (hb : Reached f entry b)
    (hdb : Dominates (Edge f) entry d b) : motive b := by
  induction hn : doms.order.idxOf b using Nat.strong_induction_on generalizing b with
  | _ n ih =>
    subst hn
    by_cases heq : d = b
    · exact heq ▸ top
    have hsdom : StrictlyDominates (Edge f) entry d b := ⟨hdb, heq⟩
    obtain ⟨e, hidom⟩ := hd.idom_exists b hb hsdom.ne_entry
    obtain ⟨-, he⟩ := (hd.idom_iff b e).mp hidom
    exact step b e hidom hsdom
      (ih _ (hd.idxOf_lt hp hidom) (he.1.1.reachable hb) (he.2 d hsdom) rfl)

lemma eq_or_below_child (hx : Reached f entry x)
    (hbx : Dominates (Edge f) entry b x) :
    x = b ∨ ∃ c, doms.idom c = some b ∧ Dominates (Edge f) entry c x := by
  refine hd.climb_induction hp (motive := fun x => x = b ∨ ∃ c, doms.idom c = some b ∧
    Dominates (Edge f) entry c x) (.inl rfl) (fun c e hidom _ ih => .inr ?_) hx hbx
  obtain ⟨-, he⟩ := (hd.idom_iff c e).mp hidom
  rcases ih with rfl | ⟨c', hc', hdom⟩
  · exact ⟨c, hidom, .refl c⟩
  · exact ⟨c', hc', hdom.trans he.1.1⟩

lemma chain (hb : Reached f entry b) (hab : Dominates (Edge f) entry a b)
    (hcb : Dominates (Edge f) entry c b) :
    Dominates (Edge f) entry a c ∨ Dominates (Edge f) entry c a := by
  induction hn : doms.order.idxOf b using Nat.strong_induction_on generalizing b with
  | _ n ih =>
    subst hn
    by_cases hne : b = entry
    · subst hne
      rw [mem_singleton.mp (hab _ .start), mem_singleton.mp (hcb _ .start)]
      exact .inl (.refl b)
    obtain ⟨e, hidom⟩ := hd.idom_exists b hb hne
    obtain ⟨-, he⟩ := (hd.idom_iff b e).mp hidom
    rcases he.dominates_iff.mp hab with rfl | hae
    · exact .inr hcb
    rcases he.dominates_iff.mp hcb with rfl | hce
    · exact .inl hab
    exact ih _ (hd.idxOf_lt hp hidom) (he.1.1.reachable hb) hae hce rfl

lemma children_apart {c' : Block} (hc : doms.idom c = some b)
    (hc' : doms.idom c' = some b) (hx : Reached f entry x)
    (hcx : Dominates (Edge f) entry c x) (hcx' : Dominates (Edge f) entry c' x) :
    c = c' := by
  have hkey : ∀ {c c' : Block}, doms.idom c = some b → doms.idom c' = some b →
      Dominates (Edge f) entry c c' → c = c' := by
    intro c c' hc hc' hdom
    by_contra hne
    obtain ⟨hr, hb⟩ := (hd.idom_iff c b).mp hc
    obtain ⟨-, hb'⟩ := (hd.idom_iff c' b).mp hc'
    exact hb.1.2 (hb.1.1.antisymm (hb'.2 c ⟨hdom, hne⟩) (hb.1.1.reachable hr))
  rcases hd.chain hp hx hcx hcx' with h | h
  · exact hkey hc hc' h
  · exact (hkey hc' hc h).symm

end

end DominatorsOf

/-! ### Dominance frontiers -/

lemma mem_addFrontier (frontiers : SideTable (List Block)) (owner block c b : Block) :
    b ∈ (Dominators.addFrontier frontiers owner block).get c.id ↔
      b ∈ frontiers.get c.id ∨ (c = owner ∧ b = block) := by
  unfold Dominators.addFrontier
  split
  · next hmem =>
    constructor
    · exact .inl
    · rintro (h | ⟨rfl, rfl⟩)
      · exact h
      · exact hmem
  · rw [get_modify]
    by_cases hc : c = owner
    · subst hc
      simp
    · have hid : c.id ≠ owner.id := fun h => hc (Block.ext h)
      simp [hid, hc]

lemma mem_foldl_addFrontier (owners : List Block) (frontiers : SideTable (List Block))
    (block c b : Block) :
    b ∈ (owners.foldl (fun table owner => Dominators.addFrontier table owner block)
      frontiers).get c.id ↔ b ∈ frontiers.get c.id ∨ (c ∈ owners ∧ b = block) := by
  induction owners generalizing frontiers with
  | nil => simp
  | cons owner owners ih =>
    rw [foldl_cons, ih, mem_addFrontier, mem_cons]
    tauto

lemma mem_frontiers_iff (f : Function) (doms : Dominators) (c b : Block) :
    b ∈ (doms.frontiers f).get c.id ↔
      b ∈ doms.order ∧ c ∈ doms.frontierOwners f b := by
  have hfold : ∀ (blocks : List Block) (table : SideTable (List Block)),
      b ∈ (blocks.foldl (fun table block => (doms.frontierOwners f block).foldl
        (fun table owner => Dominators.addFrontier table owner block) table) table).get c.id ↔
        b ∈ table.get c.id ∨ (b ∈ blocks ∧ c ∈ doms.frontierOwners f b) := by
    intro blocks
    induction blocks with
    | nil => simp
    | cons block blocks ih =>
      intro table
      rw [foldl_cons, ih, mem_foldl_addFrontier, mem_cons]
      constructor
      · rintro ((h | ⟨h, rfl⟩) | h)
        · exact .inl h
        · exact .inr ⟨.inl rfl, h⟩
        · exact .inr ⟨.inr h.1, h.2⟩
      · rintro (h | ⟨rfl | h, hc⟩)
        · exact .inl (.inl h)
        · exact .inl (.inr ⟨hc, rfl⟩)
        · exact .inr ⟨h, hc⟩
  rw [Dominators.frontiers, hfold]
  simp [SideTable.get]

/-- The dominance of `x` ends at `y`: it dominates a predecessor of `y` but not strictly `y`. -/
def OnFrontier (f : Function) (entry x y : Block) : Prop :=
  (∃ p, Reached f entry p ∧ Edge f p y ∧ Dominates (Edge f) entry x p) ∧
    ¬ StrictlyDominates (Edge f) entry x y

lemma OnFrontier.reached {y : Block} (h : OnFrontier f entry x y) :
    Reached f entry x ∧ Reached f entry y := by
  obtain ⟨⟨p, hp, hedge, hdom⟩, -⟩ := h
  exact ⟨hdom.reachable hp, hp.step hedge⟩

lemma DominatorsOf.mem_frontiers (hd : DominatorsOf f entry doms)
    (hp : PredsAgree f entry)
    (hentry : ∀ p, Reached f entry p → ¬ Edge f p entry) {y : Block} :
    y ∈ (doms.frontiers f).get x.id ↔ OnFrontier f entry x y := by
  rw [mem_frontiers_iff, hd.mem_order_iff]
  by_cases hy : Reached f entry y
  swap
  · exact iff_of_false (fun h => hy h.1) fun h => hy h.reached.2
  rw [and_iff_right hy, Dominators.frontierOwners]
  by_cases hne : y = entry
  · subst hne
    rw [(hd.idom_eq_none_iff hy).mpr rfl]
    refine iff_of_false not_mem_nil ?_
    rintro ⟨⟨p, hpr, hedge, -⟩, -⟩
    exact hentry p hpr hedge
  obtain ⟨d, hidom⟩ := hd.idom_exists y hy hne
  obtain ⟨-, hdy⟩ := (hd.idom_iff y d).mp hidom
  have hstrict : StrictlyDominates (Edge f) entry x y ↔ Dominates (Edge f) entry x d :=
    ⟨hdy.2 x, fun h => hdy.1.trans_left h hy⟩
  simp only [hidom, OnFrontier, hstrict]
  split
  · -- a single predecessor is the immediate dominator, and no dominance ends at the block
    next hlt =>
    refine iff_of_false not_mem_nil ?_
    rintro ⟨⟨p, hpr, hedge, hxp⟩, hxd⟩
    have hmem := (hp p y hpr hy).mpr hedge
    have hsingle : ∀ q, Reached f entry q → Edge f q y → q = p := by
      intro q hq hqy
      have hmem' := (hp q y hq hy).mpr hqy
      match hps : f.preds y, hlt with
      | [r], _ =>
        rw [hps, mem_singleton] at hmem hmem'
        rw [hmem, hmem']
      | [], _ =>
        rw [hps] at hmem
        cases hmem
    obtain rfl := hdy.unique (IsIdom.of_single hne hy hsingle) hy
    exact hxd hxp
  · have hchain : ∀ p, Reached f entry p → Edge f p y →
        (x ∈ doms.chainBelow d (doms.order.length + 1) p ↔
          Dominates (Edge f) entry x p ∧ ¬ Dominates (Edge f) entry x d) := by
      intro p hpr hedge
      refine hd.mem_chainBelow_iff hp _ hpr ?_ (hdy.1.1.of_edge hdy.1.2 hedge)
      have := idxOf_lt_length_of_mem ((hd.mem_order_iff p).mpr hpr)
      omega
    rw [mem_flatMap]
    constructor
    · rintro ⟨p, hmem, hx⟩
      by_cases hpr : Reached f entry p
      · have hedge := (hp p y hpr hy).mp hmem
        obtain ⟨hxp, hxd⟩ := (hchain p hpr hedge).mp hx
        exact ⟨⟨p, hpr, hedge, hxp⟩, hxd⟩
      · have hreach : doms.isReachable p = false :=
          Bool.eq_false_iff.mpr (mt (hd.isReachable_iff p).mp hpr)
        simp [Dominators.chainBelow, hreach] at hx
    · rintro ⟨⟨p, hpr, hedge, hxp⟩, hxd⟩
      exact ⟨p, (hp p y hpr hy).mpr hedge, (hchain p hpr hedge).mpr ⟨hxp, hxd⟩⟩

lemma frontiers_nodup (f : Function) (doms : Dominators) (x : Block) :
    ((doms.frontiers f).get x.id).Nodup := by
  have hadd : ∀ table : SideTable (List Block), (table.get x.id).Nodup → ∀ owner block,
      ((Dominators.addFrontier table owner block).get x.id).Nodup := by
    intro table htable owner block
    unfold Dominators.addFrontier
    split
    · exact htable
    · next hnew =>
      rw [get_modify]
      split
      · next heq =>
        rw [heq] at htable
        exact nodup_append.mpr ⟨htable, nodup_singleton _, fun a ha b hb hab => hnew (by
          rw [← mem_singleton.mp hb, ← hab]; exact ha)⟩
      · exact htable
  refine List.foldlRecOn (motive := fun table : SideTable (List Block) => (table.get x.id).Nodup)
    _ _ nodup_nil fun table htable block _ => ?_
  exact List.foldlRecOn (motive := fun table : SideTable (List Block) => (table.get x.id).Nodup)
    _ _ htable fun table htable owner _ => hadd table htable owner block

/-! ### What the dominators say of all functions -/

/-- Control can get from the entry to a block. -/
def InReach (f : Function) (b : Block) : Prop :=
  ∃ entry ∈ f.entry?, Reached f entry b

/-- Every path from the entry to `b` passes through `a`. -/
def Above (f : Function) (a b : Block) : Prop :=
  ∀ entry ∈ f.entry?, Dominates (Edge f) entry a b

/-- The recorded predecessors of a block in reach are, among the blocks in reach, those that branch
to it. -/
def RecordsPreds (f : Function) : Prop :=
  ∀ b, InReach f b → ∃ info, f.block? b = some info ∧
    ∀ p, InReach f p → (p ∈ info.preds ↔ Edge f p b)

lemma inReach_iff {entry : Block} (hentry : f.entry? = some entry) (b : Block) :
    InReach f b ↔ Reached f entry b := by
  simp [InReach, hentry]

lemma above_iff {entry : Block} (hentry : f.entry? = some entry) (a b : Block) :
    Above f a b ↔ Dominates (Edge f) entry a b := by
  simp [Above, hentry]

lemma RecordsPreds.dominatorsOf (h : RecordsPreds f) {entry : Block}
    (hentry : f.entry? = some entry) :
    PredsAgree f entry ∧ ∃ doms, Dominators.compute f = .ok doms ∧
      DominatorsOf f entry doms := by
  have hinfo (b : Block) (hb : Reached f entry b) := h b ((inReach_iff hentry b).mpr hb)
  have hagree : PredsAgree f entry := by
    intro p b hp hb
    obtain ⟨info, hblock, hpreds⟩ := hinfo b hb
    rw [← hpreds p ((inReach_iff hentry p).mpr hp), Function.preds, hblock]
    rfl
  refine ⟨hagree, compute_dominatorsOf hentry (fun b hb => ?_) hagree⟩
  obtain ⟨info, hblock, -⟩ := hinfo b hb
  exact (Array.getElem?_eq_some_iff.mp hblock).1

lemma compute_of_no_entry (h : f.entry? = none) :
    Dominators.compute f =
      .ok ⟨[], { fallback := none }, { fallback := none }, { fallback := [] }⟩ := by
  have horder : Dominators.reversePostorder f = [] := by rw [Dominators.reversePostorder, h]
  rw [Dominators.compute, horder]
  rfl

/-- Two blocks that can be entered each from the entry and from the other, and a block that no edge
leads to. -/
def tangled : Function where
  name := "tangled"
  ret := .void
  span := .zero
  node := 0
  params := [⟨0⟩]
  values := #[⟨.param .i1 0, some ⟨0⟩, .zero, 0⟩, ⟨.condBr ⟨0⟩ ⟨1⟩ ⟨2⟩, some ⟨0⟩, .zero, 0⟩,
    ⟨.br ⟨2⟩, some ⟨1⟩, .zero, 0⟩, ⟨.condBr ⟨0⟩ ⟨1⟩ ⟨3⟩, some ⟨2⟩, .zero, 0⟩,
    ⟨.ret none, some ⟨3⟩, .zero, 0⟩, ⟨.br ⟨3⟩, some ⟨4⟩, .zero, 0⟩]
  blocks := #[⟨"entry", [], [⟨0⟩, ⟨1⟩]⟩, ⟨"left", [⟨0⟩, ⟨2⟩], [⟨2⟩]⟩, ⟨"right", [⟨0⟩, ⟨1⟩], [⟨3⟩]⟩,
    ⟨"exit", [⟨2⟩, ⟨4⟩], [⟨4⟩]⟩, ⟨"dead", [], [⟨5⟩]⟩]
  layout := [⟨0⟩, ⟨1⟩, ⟨2⟩, ⟨3⟩, ⟨4⟩]

lemma tangled_inReach (hb : InReach tangled b) : b ∈ tangled.layout.take 4 := by
  have hclosed : ∀ p ∈ tangled.layout.take 4, ∀ b ∈ tangled.successors p,
      b ∈ tangled.layout.take 4 := by decide
  exact ((inReach_iff rfl b).mp hb).induction (by decide) fun p b _ hedge hp => hclosed p hp b hedge

lemma tangled_recordsPreds : RecordsPreds tangled := by
  have hpreds : ∀ b ∈ tangled.layout.take 4, ∃ info ∈ tangled.block? b,
      ∀ p ∈ tangled.layout.take 4, (p ∈ info.preds ↔ b ∈ tangled.successors p) := by decide
  intro b hb
  obtain ⟨info, hinfo, hall⟩ := hpreds b (tangled_inReach hb)
  exact ⟨info, hinfo, fun p hp => hall p (tangled_inReach hp)⟩

variable {function : Function}

/-- The dominators of a function are computed, and say what its paths say: which blocks can be
reached, which block lies on all paths to which, and which strict dominator is the nearest. -/
theorem dominator_tree_is_exact (h : RecordsPreds function) :
    ∃ dominators, Dominators.compute function = .ok dominators ∧
      dominators.order.Nodup ∧ dominators.order.head? = function.entry? ∧
      (∀ b, b ∈ dominators.order ↔ InReach function b) ∧
      (∀ b, dominators.isReachable b = true ↔ InReach function b) ∧
      (∀ a b, dominators.dominates a b = true ↔
        InReach function a ∧ InReach function b ∧ Above function a b) ∧
      (∀ b d, dominators.idom b = some d ↔ InReach function b ∧
        ∀ entry ∈ function.entry?, IsIdom (Edge function) entry d b) ∧
      ∀ b, dominators.idom b = none ↔ ¬ InReach function b ∨ function.entry? = some b := by
  cases hentry : function.entry? with
  | none =>
    have hnone (b : Block) : ¬ InReach function b := by simp [InReach, hentry]
    refine ⟨_, compute_of_no_entry hentry, ?_⟩
    simp [hnone, Dominators.isReachable, Dominators.dominates, Dominators.idom, SideTable.get]
  | some entry =>
    obtain ⟨hp, dominators, hcompute, hd⟩ := h.dominatorsOf hentry
    refine ⟨dominators, hcompute, hd.order.nodup, hd.order.head_eq, ?_⟩
    simp only [inReach_iff hentry, above_iff hentry, Option.mem_some_iff, forall_eq',
      Option.some.injEq]
    refine ⟨hd.mem_order_iff, hd.isReachable_iff, fun a b => ?_, hd.idom_iff, fun b => ?_⟩
    · by_cases ha : Reached function entry a
      · rw [hd.dominates_iff hp ha, and_iff_right ha]
      · have hrank := mt (hd.isReachable_iff a).mp ha
        rw [Dominators.isReachable, Option.not_isSome_iff_eq_none] at hrank
        simp [Dominators.dominates, hrank, ha]
    · by_cases hb : Reached function entry b
      · rw [hd.idom_eq_none_iff hb, or_iff_right (not_not.mpr hb), eq_comm]
      · refine iff_of_true (Option.eq_none_iff_forall_ne_some.mpr fun d hidom => hb ?_) (.inl hb)
        exact ((hd.idom_iff b d).mp hidom).1

theorem tangled_dominator_tree : RecordsPreds tangled ∧
    ∃ dominators, Dominators.compute tangled = .ok dominators ∧
      dominators.dominates ⟨0⟩ ⟨3⟩ = true ∧ dominators.dominates ⟨1⟩ ⟨2⟩ = false ∧
      dominators.idom ⟨3⟩ = some ⟨2⟩ ∧ dominators.isReachable ⟨4⟩ = false ∧
      (∀ b, dominators.isReachable b = true ↔ InReach tangled b) ∧
      ∀ a b, dominators.dominates a b = true ↔
        InReach tangled a ∧ InReach tangled b ∧ Above tangled a b := by
  obtain ⟨dominators, hcompute, -, -, -, hreach, hdom, -, -⟩ :=
    dominator_tree_is_exact tangled_recordsPreds
  have hvalue : (Dominators.compute tangled).toOption.any (fun d => d.dominates ⟨0⟩ ⟨3⟩ &&
      !d.dominates ⟨1⟩ ⟨2⟩ && d.idom ⟨3⟩ == some ⟨2⟩ && !d.isReachable ⟨4⟩) = true := by
    decide +kernel
  simp [hcompute, Except.toOption] at hvalue
  exact ⟨tangled_recordsPreds, dominators, hcompute, hvalue.1.1.1, hvalue.1.1.2, hvalue.1.2,
    hvalue.2, hreach, hdom⟩

/-- The frontiers of a function are exact: a block is listed in the frontier of `x`, once, if `x`
dominates one of its predecessors and does not strictly dominate the block. -/
theorem frontiers_are_exact (h : RecordsPreds function)
    (hentry : ∀ entry ∈ function.entry?, ∀ p, InReach function p → ¬ Edge function p entry) :
    ∃ dominators, Dominators.compute function = .ok dominators ∧
      (∀ x y, InReach function x → InReach function y →
        (y ∈ (dominators.frontiers function).get x.id ↔
          (∃ p, InReach function p ∧ Edge function p y ∧ Above function x p) ∧
            ¬ (Above function x y ∧ x ≠ y))) ∧
      (∀ x : Block, ((dominators.frontiers function).get x.id).Nodup) ∧
      ∀ x : Block, ¬ InReach function x → (dominators.frontiers function).get x.id = [] := by
  cases hstart : function.entry? with
  | none =>
    have hnone (b : Block) : ¬ InReach function b := by simp [InReach, hstart]
    exact ⟨_, compute_of_no_entry hstart, fun x _ hx => absurd hx (hnone x),
      frontiers_nodup function _, fun _ _ => rfl⟩
  | some entry =>
    obtain ⟨hp, dominators, hcompute, hd⟩ := h.dominatorsOf hstart
    simp only [hstart, Option.mem_some_iff, forall_eq', inReach_iff hstart] at hentry
    refine ⟨dominators, hcompute, ?_, frontiers_nodup function dominators, ?_⟩
    · intro x y _ _
      simp only [inReach_iff hstart, above_iff hstart]
      exact hd.mem_frontiers hp hentry
    · intro x hx
      rw [inReach_iff hstart] at hx
      refine eq_nil_iff_forall_not_mem.mpr fun y hy => hx ?_
      exact ((hd.mem_frontiers hp hentry).mp hy).reached.1

theorem tangled_frontiers : RecordsPreds tangled ∧
    (∀ entry ∈ tangled.entry?, ∀ p, InReach tangled p → ¬ Edge tangled p entry) ∧
    ∃ dominators, Dominators.compute tangled = .ok dominators ∧
      (dominators.frontiers tangled).get 1 = [⟨2⟩] ∧ (dominators.frontiers tangled).get 2 = [⟨1⟩] ∧
      ∀ x : Block, ¬ InReach tangled x → (dominators.frontiers tangled).get x.id = [] := by
  have hentry : ∀ entry ∈ tangled.entry?, ∀ p, InReach tangled p → ¬ Edge tangled p entry := by
    have hnone : ∀ p ∈ tangled.layout.take 4, ⟨0⟩ ∉ tangled.successors p := by decide
    rintro _ ⟨⟩ p hp
    exact hnone p (tangled_inReach hp)
  obtain ⟨dominators, hcompute, -, -, hempty⟩ := frontiers_are_exact tangled_recordsPreds hentry
  have hvalue : (Dominators.compute tangled).toOption.any (fun d =>
      (d.frontiers tangled).get 1 == [⟨2⟩] && (d.frontiers tangled).get 2 == [⟨1⟩]) = true := by
    decide +kernel
  simp [hcompute, Except.toOption] at hvalue
  exact ⟨tangled_recordsPreds, hentry, dominators, hcompute, hvalue.1, hvalue.2, hempty⟩

end SsaLowering.Proofs
