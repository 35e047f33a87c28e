import SsaLowering.Proofs.SlotAccess

/-!
# Where phis are placed

Placing phis is a run of insertions, each of a phi for a slot into a block. The places are closed
under dominance frontiers: where a block stores to a slot or has a phi for it, the blocks of its
frontier at whose entry the slot is live have one.
-/

namespace SsaLowering.Proofs

open Ir Ssa List

variable {b : Block} {homes : List (Slot × Block)} {v : Value}

/-! ### Which blocks get a phi -/

def insertHome (placed : Placed) (home : Slot × Block) : Placed :=
  insertPhi placed home.1 home.2

section Spread

variable {slot : Slot} {live : List Block} {base : Placed} {frontiers : SideTable (List Block)}
  {defs : Block → Prop}

/-- A block lies in the iterated frontier of the blocks that define a slot. -/
def Stems (frontiers : SideTable (List Block)) (defs : Block → Prop) (b : Block) : Prop :=
  ∃ c, defs c ∧ Relation.TransGen (fun x y : Block => y ∈ frontiers.get x.id) c b

/-- What holds while the phis of one slot are placed. -/
structure Spreading (slot : Slot) (live : List Block) (base : Placed)
    (frontiers : SideTable (List Block)) (defs : Block → Prop) (state : Spread) : Prop where
  placed_eq : state.placed = (state.done.reverse.map (slot, ·)).foldl insertHome base
  nodup : state.done.Nodup
  needed : ∀ b ∈ state.done, b ∈ live
  origin : ∀ b ∈ state.done, Stems frontiers defs b
  queued : ∀ b ∈ state.done, b ∈ state.queued
  waiting : ∀ b ∈ state.worklist, defs b ∨ Stems frontiers defs b

lemma Spreading.visit {state : Spread} (h : Spreading slot live base frontiers defs state)
    (hb : Stems frontiers defs b) :
    Spreading slot live base frontiers defs (visitFrontier slot live state b) ∧
      (∀ x ∈ state.done, x ∈ (visitFrontier slot live state b).done) ∧
      (b ∈ live → b ∈ (visitFrontier slot live state b).done) ∧
      ∃ fresh, (visitFrontier slot live state b).queued = fresh ++ state.queued ∧
        (visitFrontier slot live state b).worklist = fresh ++ state.worklist ∧
        fresh.Nodup ∧ ∀ x ∈ fresh, x = b ∧ x ∉ state.queued := by
  unfold visitFrontier
  by_cases hskip : b ∉ live ∨ b ∈ state.done
  · rw [if_pos hskip]
    refine ⟨h, fun _ hx => hx, fun hlive => hskip.resolve_left (not_not.mpr hlive), [], rfl, rfl,
      nodup_nil, by simp⟩
  rw [if_neg hskip]
  rw [not_or, not_not] at hskip
  have hplaced : insertPhi state.placed slot b =
      ((b :: state.done).reverse.map (slot, ·)).foldl insertHome base := by
    rw [reverse_cons, map_append, foldl_append, ← h.placed_eq]
    rfl
  have hlive : ∀ x ∈ b :: state.done, x ∈ live := by
    rintro x hx
    rcases mem_cons.mp hx with rfl | hx
    · exact hskip.1
    · exact h.needed x hx
  have horigin : ∀ x ∈ b :: state.done, Stems frontiers defs x := by
    rintro x hx
    rcases mem_cons.mp hx with rfl | hx
    · exact hb
    · exact h.origin x hx
  have hnodup := nodup_cons.mpr ⟨hskip.2, h.nodup⟩
  dsimp only
  split
  · next hq =>
    refine ⟨⟨hplaced, hnodup, hlive, horigin, ?_, h.waiting⟩, fun x hx => mem_cons_of_mem _ hx,
      fun _ => mem_cons_self, [], rfl, rfl, nodup_nil, by simp⟩
    rintro x hx
    rcases mem_cons.mp hx with rfl | hx
    · exact hq
    · exact h.queued x hx
  · next hq =>
    refine ⟨⟨hplaced, hnodup, hlive, horigin, ?_, ?_⟩, fun x hx => mem_cons_of_mem _ hx,
      fun _ => mem_cons_self, [b], rfl, rfl, nodup_singleton b, ?_⟩
    · rintro x hx
      rcases mem_cons.mp hx with rfl | hx
      · exact mem_cons_self
      · exact mem_cons_of_mem _ (h.queued x hx)
    · rintro x hx
      rcases mem_cons.mp hx with rfl | hx
      · exact .inr hb
      · exact h.waiting x hx
    · rintro x hx
      obtain rfl := mem_singleton.mp hx
      exact ⟨rfl, hq⟩

lemma Spreading.visitAll {state : Spread} (h : Spreading slot live base frontiers defs state)
    (blocks : List Block) (hblocks : ∀ b ∈ blocks, Stems frontiers defs b) :
    Spreading slot live base frontiers defs (blocks.foldl (visitFrontier slot live) state) ∧
      (∀ x ∈ state.done, x ∈ (blocks.foldl (visitFrontier slot live) state).done) ∧
      (∀ b ∈ blocks, b ∈ live → b ∈ (blocks.foldl (visitFrontier slot live) state).done) ∧
      ∃ fresh, (blocks.foldl (visitFrontier slot live) state).queued = fresh ++ state.queued ∧
        (blocks.foldl (visitFrontier slot live) state).worklist = fresh ++ state.worklist ∧
        fresh.Nodup ∧ ∀ x ∈ fresh, x ∈ blocks ∧ x ∉ state.queued := by
  induction blocks generalizing state with
  | nil => exact ⟨h, fun _ hx => hx, by simp, [], rfl, rfl, nodup_nil, by simp⟩
  | cons b blocks ih =>
    obtain ⟨h1, hdone1, hb1, fresh1, hq1, hw1, hn1, hf1⟩ := h.visit (hblocks b mem_cons_self)
    obtain ⟨h2, hdone2, hb2, fresh2, hq2, hw2, hn2, hf2⟩ :=
      ih h1 fun x hx => hblocks x (mem_cons_of_mem _ hx)
    rw [foldl_cons]
    refine ⟨h2, fun x hx => hdone2 x (hdone1 x hx), fun x hx hlive => ?_, fresh2 ++ fresh1, ?_, ?_,
      ?_, fun x hx => ?_⟩
    · rcases mem_cons.mp hx with rfl | hx
      · exact hdone2 x (hb1 hlive)
      · exact hb2 x hx hlive
    · rw [hq2, hq1, append_assoc]
    · rw [hw2, hw1, append_assoc]
    · refine nodup_append.mpr ⟨hn2, hn1, fun x hx y hy heq => ?_⟩
      refine (hf2 x hx).2 ?_
      rw [hq1, heq]
      exact mem_append_left _ hy
    · rcases mem_append.mp hx with hx | hx
      · refine ⟨mem_cons_of_mem _ (hf2 x hx).1, fun hmem => (hf2 x hx).2 ?_⟩
        rw [hq1]
        exact mem_append_right _ hmem
      · exact ⟨(hf1 x hx).1 ▸ mem_cons_self, (hf1 x hx).2⟩

/-- The blocks that get a phi for one slot: none twice, only where the slot is live and in the
iterated frontier of its definitions, and with each block that defines the slot those of its
frontier. -/
structure Spreads (slot : Slot) (live : List Block) (base : Placed)
    (frontiers : SideTable (List Block)) (defs : Block → Prop) (placed : Placed)
    (blocks : List Block) : Prop where
  placed_eq : placed = (blocks.map (slot, ·)).foldl insertHome base
  nodup : blocks.Nodup
  needed : ∀ b ∈ blocks, b ∈ live
  origin : ∀ b ∈ blocks, Stems frontiers defs b
  closed : ∀ c, defs c ∨ c ∈ blocks → ∀ b ∈ frontiers.get c.id, b ∈ live → b ∈ blocks

lemma spread_spec {order : List Block} (hnodup : order.Nodup)
    (hfrontier : ∀ c b : Block, b ∈ frontiers.get c.id → b ∈ order) (fuel : Nat) (state : Spread)
    (h : Spreading slot live base frontiers defs state) (hdefs : ∀ c, defs c → c ∈ state.queued)
    (hqueued : ∀ b ∈ state.queued, b ∈ order)
    (hfuel : state.worklist.length + unseen order state.queued < fuel)
    (hinv : ∀ c ∈ state.queued, c ∈ state.worklist ∨
      ∀ b ∈ frontiers.get c.id, b ∈ live → b ∈ state.done) :
    ∃ blocks, Spreads slot live base frontiers defs (spread frontiers slot live fuel state)
      blocks := by
  induction fuel generalizing state with
  | zero => omega
  | succ fuel ih =>
    rw [spread]
    cases hw : state.worklist with
    | nil =>
      refine ⟨state.done.reverse, h.placed_eq, nodup_reverse.mpr h.nodup, fun b hb => ?_,
        fun b hb => ?_, fun c hc b hb hlive => ?_⟩
      · exact h.needed b (mem_reverse.mp hb)
      · exact h.origin b (mem_reverse.mp hb)
      · have hcq : c ∈ state.queued :=
          hc.elim (hdefs c) fun hc => h.queued c (mem_reverse.mp hc)
        rw [mem_reverse]
        exact (hinv c hcq).resolve_left (by simp [hw]) b hb hlive
    | cons block rest =>
      have hstate : Spreading slot live base frontiers defs { state with worklist := rest } :=
        ⟨h.placed_eq, h.nodup, h.needed, h.origin, h.queued,
          fun b hb => h.waiting b (hw ▸ mem_cons_of_mem _ hb)⟩
      have hstems : ∀ b ∈ frontiers.get block.id, Stems frontiers defs b := by
        intro b hb
        rcases h.waiting block (hw ▸ mem_cons_self) with hdef | ⟨c, hc, hpath⟩
        · exact ⟨block, hdef, .single hb⟩
        · exact ⟨c, hc, hpath.tail hb⟩
      obtain ⟨h1, hdone, hvisited, fresh, hq, hwork, hn, hf⟩ :=
        hstate.visitAll (frontiers.get block.id) hstems
      set next := (frontiers.get block.id).foldl (visitFrontier slot live)
        { state with worklist := rest } with hnext
      have hseen : ∀ b, b ∈ next.queued ↔ b ∈ state.queued ∨ b ∈ fresh := by
        intro b
        rw [hq, mem_append, or_comm]
      have hfresh : ∀ b ∈ fresh, b ∈ order ∧ b ∉ state.queued := fun b hb =>
        ⟨hfrontier block b (hf b hb).1, (hf b hb).2⟩
      have hcount := unseen_add hnodup hn hfresh hseen
      have hqueued' : ∀ b ∈ next.queued, b ∈ order := fun b hb =>
        ((hseen b).mp hb).elim (hqueued b) fun hb => (hfresh b hb).1
      have hfuel' : next.worklist.length + unseen order next.queued < fuel := by
        rw [hwork, length_append]
        rw [hw, length_cons] at hfuel
        dsimp only
        omega
      have hinv' : ∀ c ∈ next.queued, c ∈ next.worklist ∨
          ∀ b ∈ frontiers.get c.id, b ∈ live → b ∈ next.done := by
        intro c hc
        rw [hwork]
        rcases (hseen c).mp hc with hc | hc
        · rcases hinv c hc with hcw | hcd
          · rw [hw] at hcw
            rcases mem_cons.mp hcw with rfl | hcw
            · exact .inr hvisited
            · exact .inl (mem_append_right _ hcw)
          · exact .inr fun b hb hlive => hdone b (hcd b hb hlive)
        · exact .inl (mem_append_left _ hc)
      exact ih next h1 (fun c hc => (hseen c).mpr (.inl (hdefs c hc))) hqueued' hfuel' hinv'

end Spread

section Placement

variable {p : Function} {entry : Block} {doms : Dominators} {slots : List Slot}

lemma placeSlot_spreads (hd : DominatorsOf p entry doms) (base : Placed) (s : Slot) :
    ∃ blocks, Spreads s (liveBlocks slots p doms s) base (doms.frontiers p)
      (fun c => Reached p entry c ∧ StoresIn slots p s (p.insts c))
      (placeSlot slots p doms (doms.frontiers p) base s) blocks := by
  set defs := doms.order.filter (stores slots p s) with hdefs
  have hmem : ∀ c, c ∈ defs ↔ Reached p entry c ∧ StoresIn slots p s (p.insts c) := by
    intro c
    rw [hdefs, mem_filter, hd.mem_order_iff, stores_iff]
  have hnodup := hd.order.nodup
  have hcount : unseen doms.order defs + defs.length ≤ unseen doms.order [] :=
    unseen_add hnodup (hnodup.filter _) (fun b hb => ⟨(mem_filter.mp hb).1, by simp⟩)
      fun b => by simp
  have hall : unseen doms.order [] ≤ doms.order.length := length_filter_le _ _
  exact spread_spec hnodup
    (fun c b hb => ((mem_frontiers_iff p doms c b).mp hb).1) (doms.order.length + 1)
    { placed := base, queued := defs, worklist := defs.reverse }
    ⟨rfl, nodup_nil, by simp, by simp, by simp,
      fun b hb => .inl ((hmem b).mp (mem_reverse.mp hb))⟩
    (fun c hc => (hmem c).mpr hc) (fun b hb => (mem_filter.mp hb).1)
    (by rw [length_reverse]; dsimp only; omega) (fun c hc => .inl (mem_reverse.mpr hc))

/-- The places of the phis of some slots. -/
structure PhiHomes (slots : List Slot) (p : Function) (entry : Block) (doms : Dominators)
    (todo : List Slot) (homes : List (Slot × Block)) : Prop where
  nodup : homes.Nodup
  slot_mem : ∀ home ∈ homes, home.1 ∈ todo
  needed : ∀ home ∈ homes, home.2 ∈ liveBlocks slots p doms home.1
  origin : ∀ home ∈ homes, Stems (doms.frontiers p)
    (fun c => Reached p entry c ∧ StoresIn slots p home.1 (p.insts c)) home.2
  closed : ∀ s ∈ todo, ∀ c, Reached p entry c →
    StoresIn slots p s (p.insts c) ∨ (s, c) ∈ homes →
      ∀ b ∈ (doms.frontiers p).get c.id, b ∈ liveBlocks slots p doms s → (s, b) ∈ homes

lemma foldl_placeSlot (hd : DominatorsOf p entry doms) (todo : List Slot)
    (hnodup : todo.Nodup) (base : Placed) :
    ∃ homes, todo.foldl (placeSlot slots p doms (doms.frontiers p)) base =
      homes.foldl insertHome base ∧ PhiHomes slots p entry doms todo homes := by
  induction todo generalizing base with
  | nil => exact ⟨[], rfl, nodup_nil, by simp, by simp, by simp, by simp⟩
  | cons s todo ih =>
    obtain ⟨hs, hrest⟩ := nodup_cons.mp hnodup
    obtain ⟨blocks, h⟩ := @placeSlot_spreads p entry doms slots hd base s
    obtain ⟨homes, heq, hh⟩ :=
      ih hrest (placeSlot slots p doms (doms.frontiers p) base s)
    have hfst : ∀ {b : Block}, (s, b) ∉ homes := fun hmem => hs (hh.slot_mem _ hmem)
    have hmem : ∀ {t : Slot} {b : Block}, (t, b) ∈ blocks.map (s, ·) ↔ t = s ∧ b ∈ blocks := by
      intro t b
      simp [eq_comm, and_comm]
    refine ⟨blocks.map (s, ·) ++ homes, ?_, ?_, fun home hhome => ?_, fun home hhome => ?_,
      fun home hhome => ?_, fun t ht c hc hdef b hb hlive => ?_⟩
    · rw [foldl_cons, heq, h.placed_eq, foldl_append]
    · refine nodup_append.mpr ⟨h.nodup.map (by intro a b; simp), hh.nodup, ?_⟩
      rintro ⟨t, b⟩ hb home hhome rfl
      obtain ⟨rfl, -⟩ := hmem.mp hb
      exact hfst hhome
    · rcases mem_append.mp hhome with hhome | hhome
      · rw [(hmem.mp hhome).1]
        exact mem_cons_self
      · exact mem_cons_of_mem _ (hh.slot_mem home hhome)
    · rcases mem_append.mp hhome with hhome | hhome
      · rw [(hmem.mp hhome).1]
        exact h.needed _ (hmem.mp hhome).2
      · exact hh.needed home hhome
    · rcases mem_append.mp hhome with hhome | hhome
      · rw [(hmem.mp hhome).1]
        exact h.origin _ (hmem.mp hhome).2
      · exact hh.origin home hhome
    · rw [mem_append, hmem]
      rcases mem_cons.mp ht with rfl | ht
      · refine .inl ⟨rfl, h.closed c ?_ b hb hlive⟩
        refine hdef.imp (⟨hc, ·⟩) fun hmem' => ?_
        exact (hmem.mp ((mem_append.mp hmem').resolve_right hfst)).2
      · refine .inr (hh.closed t ht c hc (hdef.imp_right fun hmem' => ?_) b hb hlive)
        refine (mem_append.mp hmem').resolve_left fun hmem'' => hs ?_
        exact (hmem.mp hmem'').1 ▸ ht

lemma placePhis_homes (hd : DominatorsOf p entry doms) (slots : List Slot) :
    ∃ homes, placePhis slots p doms = homes.foldl insertHome { function := p } ∧
      PhiHomes slots p entry doms slots homes := by
  have hmem : ∀ s, s ∈ slots.reverse.eraseDups.reverse ↔ s ∈ slots := by simp
  obtain ⟨homes, heq, h⟩ := foldl_placeSlot hd slots.reverse.eraseDups.reverse
    (nodup_reverse.mpr (nodup_eraseDups _)) { function := p }
  exact ⟨homes, heq, h.nodup, fun home hhome => (hmem _).mp (h.slot_mem home hhome), h.needed,
    h.origin, fun s hs => h.closed s ((hmem s).mpr hs)⟩

lemma PhiHomes.reached (hd : DominatorsOf p entry doms) {todo : List Slot}
    (h : PhiHomes slots p entry doms todo homes) {home : Slot × Block}
    (hhome : home ∈ homes) : Reached p entry home.2 ∧ home.2 ≠ entry := by
  obtain ⟨origin, -, hpath⟩ := h.origin home hhome
  obtain ⟨c, -, hc⟩ := Relation.TransGen.tail'_iff.mp hpath
  obtain ⟨horder, howner⟩ := (mem_frontiers_iff p doms c home.2).mp hc
  have hreach := (hd.mem_order_iff _).mp horder
  refine ⟨hreach, fun heq => ?_⟩
  rw [Dominators.frontierOwners, (hd.idom_eq_none_iff hreach).mpr heq] at howner
  cases howner

/-! ### The function with its phis -/

def newPhis (p : Function) (homes : List (Slot × Block)) (b : Block) : List Value :=
  (homes.zipIdx.filter (·.1.2 = b)).map fun e => ⟨p.values.size + e.2⟩

lemma mem_newPhis_iff :
    v ∈ newPhis p homes b ↔ ∃ i s, homes[i]? = some (s, b) ∧ v = ⟨p.values.size + i⟩ := by
  simp only [newPhis, mem_map, mem_filter, decide_eq_true_eq]
  constructor
  · rintro ⟨⟨⟨s, c⟩, i⟩, ⟨hmem, rfl⟩, rfl⟩
    exact ⟨i, s, mk_mem_zipIdx_iff_getElem?.mp hmem, rfl⟩
  · rintro ⟨i, s, hget, rfl⟩
    exact ⟨((s, b), i), ⟨mk_mem_zipIdx_iff_getElem?.mpr hget, rfl⟩, rfl⟩

lemma newPhis_nodup (p : Function) (homes : List (Slot × Block)) (b : Block) :
    (newPhis p homes b).Nodup := by
  have hsnd : ((homes.zipIdx.filter (·.1.2 = b)).map Prod.snd).Nodup := by
    refine List.Nodup.sublist (filter_sublist.map Prod.snd) ?_
    rw [zipIdx_map_snd]
    exact nodup_range'
  have hmap : newPhis p homes b = ((homes.zipIdx.filter (·.1.2 = b)).map Prod.snd).map
      fun i => ⟨p.values.size + i⟩ := by
    rw [map_map]
    rfl
  rw [hmap]
  refine hsnd.map fun i j hij => ?_
  have := congrArg Value.id hij
  dsimp only at this
  omega

lemma newPhis_concat (homes : List (Slot × Block)) (s : Slot) (b c : Block) :
    newPhis p (homes ++ [(s, b)]) c =
      newPhis p homes c ++ if c = b then [⟨p.values.size + homes.length⟩] else [] := by
  unfold newPhis
  rw [zipIdx_append, filter_append, map_append]
  by_cases hc : c = b
  · subst hc
    simp
  · simp [hc, Ne.symm hc]

/-- What a run of insertions of phis makes of a function. -/
structure Inserted (p : Function) (homes : List (Slot × Block)) (placed : Placed) : Prop where
  phis_eq : placed.phis = homes.zipIdx.map fun e => (⟨p.values.size + e.2⟩, e.1.1)
  frame : placed.function =
    { p with values := placed.function.values, blocks := placed.function.blocks }
  size_eq : placed.function.values.size = p.values.size + homes.length
  blocks_size : placed.function.blocks.size = p.blocks.size
  value_old : ∀ v : Value, v.id < p.values.size → placed.function.value? v = p.value? v
  value_new : ∀ (i : Nat) (s : Slot) (b : Block), homes[i]? = some (s, b) →
    ∃ info, placed.function.value? ⟨p.values.size + i⟩ = some info ∧
      info.inst = .phi s.ty (List.replicate (p.preds b).length s.address) ∧ info.block = some b
  preds_eq : ∀ b, placed.function.preds b = p.preds b
  insts_perm : ∀ b, (placed.function.insts b).Perm (p.insts b ++ newPhis p homes b)

lemma insertIdx_length_append {α : Type} (xs ys : List α) (x : α) :
    (xs ++ ys).insertIdx xs.length x = xs ++ x :: ys := by
  induction xs with
  | nil => simp
  | cons z xs ih => simp [ih]

lemma Inserted.nil (p : Function) : Inserted p [] { function := p } where
  phis_eq := rfl
  frame := rfl
  size_eq := rfl
  blocks_size := rfl
  value_old _ _ := rfl
  value_new := by simp
  preds_eq _ := rfl
  insts_perm b := by simp [newPhis]

section

variable {placed : Placed} (h : Inserted p homes placed)
include h

lemma Inserted.mem_phis_iff {s : Slot} :
    (v, s) ∈ placed.phis ↔ ∃ i b, homes[i]? = some (s, b) ∧ v = ⟨p.values.size + i⟩ := by
  rw [h.phis_eq, mem_map]
  constructor
  · rintro ⟨⟨⟨t, b⟩, i⟩, hmem, heq⟩
    obtain ⟨rfl, rfl⟩ := Prod.mk.inj heq
    exact ⟨i, b, mk_mem_zipIdx_iff_getElem?.mp hmem, rfl⟩
  · rintro ⟨i, b, hget, rfl⟩
    exact ⟨((s, b), i), mk_mem_zipIdx_iff_getElem?.mpr hget, rfl⟩

lemma Inserted.inst_old (hv : v.id < p.values.size) : placed.function.inst? v = p.inst? v := by
  rw [Function.inst?, h.value_old v hv, Function.inst?]

lemma Inserted.inst_new {i : Nat} {s : Slot} (hget : homes[i]? = some (s, b)) :
    placed.function.inst? ⟨p.values.size + i⟩ =
      some (.phi s.ty (List.replicate (p.preds b).length s.address)) := by
  obtain ⟨info, hinfo, hinst, -⟩ := h.value_new i s b hget
  rw [Function.inst?, hinfo, Option.map_some, hinst]

lemma Inserted.phis_of_insts (hexist : ∀ v ∈ p.insts b, v.id < p.values.size)
    (hfirst : ∀ v ∈ p.afterPhis b, p.instIs Inst.isPhi v = false)
    (hinsts : placed.function.insts b = p.phis b ++ newPhis p homes b ++ p.afterPhis b) :
    placed.function.phis b = p.phis b ++ newPhis p homes b := by
  rw [Function.phis, hinsts]
  have hphi : ∀ v ∈ p.phis b ++ newPhis p homes b,
      placed.function.instIs Inst.isPhi v = true := by
    intro v hv
    rcases mem_append.mp hv with hv | hv
    · rw [Function.instIs, h.inst_old (hexist v (p.phis_subset hv))]
      exact p.instIs_of_mem_phis hv
    · obtain ⟨i, s, hget, rfl⟩ := mem_newPhis_iff.mp hv
      rw [Function.instIs, h.inst_new hget]
      rfl
  rw [takeWhile_append_of_pos hphi]
  have hstop : (p.afterPhis b).takeWhile (placed.function.instIs Inst.isPhi) = [] := by
    cases hafter : p.afterPhis b with
    | nil => rfl
    | cons v rest =>
      have hv : v ∈ p.afterPhis b := hafter ▸ mem_cons_self
      have hmem : v ∈ p.insts b := p.phis_append_afterPhis b ▸ mem_append_right _ hv
      rw [takeWhile_cons, Function.instIs, h.inst_old (hexist v hmem)]
      have hnot := hfirst v hv
      rw [Function.instIs] at hnot
      rw [hnot]
      rfl
  rw [hstop, append_nil]

end

lemma Orderly.lt_size (hf : Orderly p entry) (hb : Reached p entry b) (hv : v ∈ p.insts b) :
    v.id < p.values.size := by
  obtain ⟨inst, hinst⟩ := Option.isSome_iff_exists.mp (hf.values_exist b hb v hv)
  exact Function.lt_size_of_inst? hinst

lemma insts_insertHome {placed : Placed} (s : Slot) (hb : b.id < placed.function.blocks.size)
    (c : Block) :
    (insertHome placed (s, b)).function.insts c =
      if c = b then (placed.function.insts b).insertIdx (placed.function.phis b).length
        ⟨placed.function.values.size⟩
      else placed.function.insts c := by
  unfold insertHome insertPhi
  rw [Function.insts, Function.block?_modifyBlock, Function.block?_addValue]
  by_cases hc : c = b
  · subst hc
    obtain ⟨info, hinfo⟩ : ∃ info, placed.function.block? c = some info :=
      ⟨_, Array.getElem?_eq_getElem hb⟩
    simp [Function.insts, hinfo, Function.addValue]
  · rw [if_neg hc, if_neg hc, Function.insts]

lemma Inserted.insert {placed : Placed} (h : Inserted p homes placed) (s : Slot)
    (hb : b.id < p.blocks.size) : Inserted p (homes ++ [(s, b)]) (insertHome placed (s, b)) where
  phis_eq := by
    simp [insertHome, insertPhi, Function.addValue, h.phis_eq, h.size_eq, zipIdx_append]
  frame := by
    rw [insertHome, insertPhi, h.frame]
    rfl
  size_eq := by
    simp [insertHome, insertPhi, Function.addValue, Function.modifyBlock, h.size_eq, Nat.add_assoc]
  blocks_size := by
    simp [insertHome, insertPhi, Function.addValue, Function.modifyBlock, h.blocks_size]
  value_old v hv := by
    rw [insertHome, insertPhi, Function.value?_modifyBlock, Function.value?_addValue,
      if_neg (by rw [h.size_eq]; omega)]
    exact h.value_old v hv
  value_new i t c hget := by
    rw [insertHome, insertPhi, Function.value?_modifyBlock, Function.value?_addValue, h.size_eq]
    rw [getElem?_append] at hget
    split at hget
    · next hi =>
      rw [if_neg (by dsimp only; omega)]
      exact h.value_new i t c hget
    · next hi =>
      obtain ⟨hi', heq⟩ := List.getElem?_eq_some_iff.mp hget
      rw [List.length_singleton] at hi'
      obtain rfl : i = homes.length := by omega
      simp only [Nat.sub_self, List.getElem_cons_zero, Prod.mk.injEq] at heq
      obtain ⟨rfl, rfl⟩ := heq
      rw [if_pos rfl]
      exact ⟨_, rfl, by rw [h.preds_eq], rfl⟩
  preds_eq c := by
    rw [← h.preds_eq c, insertHome, insertPhi, Function.preds, Function.block?_modifyBlock,
      Function.block?_addValue, Function.preds]
    split
    · rw [Option.map_map]
      rfl
    · rfl
  insts_perm c := by
    rw [insts_insertHome s (h.blocks_size ▸ hb), newPhis_concat]
    by_cases hc : c = b
    · subst hc
      rw [if_pos rfl, if_pos rfl, h.size_eq, ← append_assoc]
      have hle : (placed.function.phis c).length ≤ (placed.function.insts c).length :=
        (List.takeWhile_prefix _).length_le
      exact (perm_insertIdx _ _ hle).trans
        (((h.insts_perm c).cons _).trans (perm_append_singleton _ _).symm)
    · rw [if_neg hc, if_neg hc, append_nil]
      exact h.insts_perm c

lemma foldl_insertHome (homes : List (Slot × Block))
    (hhomes : ∀ home ∈ homes, home.2.id < p.blocks.size) :
    Inserted p homes (homes.foldl insertHome { function := p }) := by
  induction homes using List.reverseRecOn with
  | nil => exact .nil p
  | append_singleton homes home ih =>
    rw [foldl_append]
    exact (ih fun x hx => hhomes x (mem_append_left _ hx)).insert home.1
      (hhomes home (by simp))

/-- In a function that is in order, inserted phis stand behind the other phis of their block. -/
lemma foldl_insertHome_insts (hf : Orderly p entry) (homes : List (Slot × Block))
    (hhomes : ∀ home ∈ homes, Reached p entry home.2) (b : Block) :
    (homes.foldl insertHome { function := p }).function.insts b =
      p.phis b ++ newPhis p homes b ++ p.afterPhis b := by
  induction homes using List.reverseRecOn with
  | nil => simp [newPhis, p.phis_append_afterPhis b]
  | append_singleton homes home ih =>
    obtain ⟨s, c⟩ := home
    have hc : Reached p entry c := hhomes (s, c) (by simp)
    have hreached : ∀ x ∈ homes, Reached p entry x.2 := fun x hx =>
      hhomes x (mem_append_left _ hx)
    have hinserted := foldl_insertHome homes fun x hx => hf.blocks_exist x.2 (hreached x hx)
    rw [foldl_append, foldl_cons, foldl_nil,
      insts_insertHome s (hinserted.blocks_size ▸ hf.blocks_exist c hc), newPhis_concat]
    by_cases hbc : b = c
    · subst hbc
      rw [if_pos rfl, if_pos rfl, hinserted.phis_of_insts (fun v => hf.lt_size hc)
        (hf.phis_first b hc) (ih hreached), ih hreached, insertIdx_length_append, hinserted.size_eq]
      simp
    · rw [if_neg hbc, if_neg hbc, append_nil, ih hreached]

end Placement

end SsaLowering.Proofs
