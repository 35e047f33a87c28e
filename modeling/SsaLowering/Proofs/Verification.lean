import SsaLowering.Ir.Verification
import SsaLowering.Proofs.Frontier
import SsaLowering.Proofs.References

/-!
# What verification decides

Each check of the verifier is read as a property: of the places of values, of the shape of a block,
of recorded predecessors, of paths, of types. The dominators are computed before predecessors have
been checked; they are only relied on once all blocks are known to be reached and predecessors to be
right, and by then they are those that the paths give.
-/

namespace SsaLowering.Proofs

open Ir List

variable {b block : Block} {v w : Value} {place : Nat} {positions : Positions} {inst : Inst}
  {problem : Malformation} {types : LayoutTable}

/-! ### Checks one after the other -/

section Traversals

variable {α β ε : Type}

lemma bind_eq_ok_iff {x : Except ε α} {f : α → Except ε β} {b : β} :
    (x >>= f) = .ok b ↔ ∃ a, x = .ok a ∧ f a = .ok b := by
  cases x with
  | error e => exact ⟨nofun, fun ⟨_, h, _⟩ => nomatch h⟩
  | ok a => exact ⟨fun h => ⟨a, rfl, h⟩, fun ⟨_, h, hf⟩ => by cases h; exact hf⟩

lemma bind_eq_error_iff {x : Except ε α} {f : α → Except ε β} {e : ε} :
    (x >>= f) = .error e ↔ x = .error e ∨ ∃ a, x = .ok a ∧ f a = .error e := by
  cases x with
  | error e' => simp [bind, Except.bind]
  | ok a => simp [bind, Except.bind]

lemma seq_eq_ok_iff {x : Except ε Unit} {f : Unit → Except ε β} {b : β} :
    (x >>= f) = .ok b ↔ x = .ok () ∧ f () = .ok b :=
  bind_eq_ok_iff.trans ⟨fun ⟨(), hx, hf⟩ => ⟨hx, hf⟩, fun ⟨hx, hf⟩ => ⟨(), hx, hf⟩⟩

lemma forM_eq_ok_iff {f : α → Except ε Unit} {items : List α} :
    items.forM f = .ok () ↔ ∀ x ∈ items, f x = .ok () := by
  induction items with
  | nil => exact ⟨fun _ _ hx => (not_mem_nil hx).elim, fun _ => rfl⟩
  | cons x items ih =>
    change (f x >>= fun _ => items.forM f) = .ok () ↔ _
    rw [seq_eq_ok_iff, forall_mem_cons, ← ih]

lemma exists_of_forM_eq_error {f : α → Except ε Unit} {items : List α} {e : ε}
    (h : items.forM f = .error e) : ∃ x ∈ items, f x = .error e := by
  induction items with
  | nil => cases h
  | cons x items ih =>
    change (f x >>= fun _ => items.forM f) = .error e at h
    cases hx : f x with
    | error e' =>
      rw [hx] at h
      cases h
      exact ⟨x, mem_cons_self, hx⟩
    | ok _ =>
      rw [hx] at h
      obtain ⟨y, hy, hfy⟩ := ih h
      exact ⟨y, mem_cons_of_mem _ hy, hfy⟩

lemma if_ok_eq_ok_iff {p : Prop} [Decidable p] {e : ε} :
    (if p then Except.ok () else .error e) = .ok () ↔ p := by
  split <;> simp_all

end Traversals

section

variable {f : Function} {entry : Block}

/-! ### Where values stand -/

/-- Noted positions are the places of the values in the body. -/
def PositionsOf (f : Function) (positions : Positions) : Prop :=
  ∀ (v : Value) (b : Block) (place : Nat), positions.get v.id = some (b, place) ↔
    b ∈ f.layout ∧ (f.insts b)[place]? = some v

/-- All values of a body with their blocks and places. -/
def spots (f : Function) : List (Block × Value × Nat) :=
  f.layout.flatMap fun b => (f.insts b).zipIdx.map (Prod.mk b)

/-- Every value of the body records the block that it stands in. -/
def Homed (f : Function) : Prop :=
  ∀ b ∈ f.layout, ∀ v ∈ f.insts b, (f.value? v).bind ValueInfo.block = some b

lemma Homed.exists_inst (h : Homed f) (hb : b ∈ f.layout)
    (hv : v ∈ f.insts b) : ∃ inst, f.inst? v = some inst := by
  obtain ⟨info, hinfo, -⟩ := Option.bind_eq_some_iff.mp (h b hb v hv)
  exact ⟨info.inst, by rw [Function.inst?, hinfo]; rfl⟩

lemma mem_spots_iff :
    (b, v, place) ∈ spots f ↔
      b ∈ f.layout ∧ (f.insts b)[place]? = some v := by
  simp only [spots, mem_flatMap, mem_map, Prod.exists, Prod.mk.injEq]
  constructor
  · rintro ⟨c, hc, w, k, hmem, rfl, rfl, rfl⟩
    exact ⟨hc, mk_mem_zipIdx_iff_getElem?.mp hmem⟩
  · rintro ⟨hb, hget⟩
    exact ⟨b, hb, v, place, mk_mem_zipIdx_iff_getElem?.mpr hget, rfl, rfl, rfl⟩

lemma spots_values : (spots f).map (fun spot => spot.2.1) = f.placedValues := by
  simp only [spots, Function.placedValues, map_flatMap, map_map]
  refine flatMap_congr fun b _ => ?_
  exact zipIdx_map_fst 0 _

lemma foldlM_flatten {σ ε : Type} (step : Block → σ → Value × Nat → Except ε σ)
    (items : Block → List (Value × Nat)) (blocks : List Block) (start : σ) :
    blocks.foldlM (fun state b => (items b).foldlM (step b) state) start =
      (blocks.flatMap fun b => (items b).map (Prod.mk b)).foldlM
        (fun state spot => step spot.1 state spot.2) start := by
  induction blocks generalizing start with
  | nil => rfl
  | cons b blocks ih =>
    rw [foldlM_cons, flatMap_cons, foldlM_append, foldlM_map]
    exact bind_congr fun state => ih state

lemma foldlM_notePosition {spots : List (Block × Value × Nat)} {table : Positions} :
    spots.foldlM (fun table spot => f.notePosition spot.1 table spot.2) table =
        .ok positions ↔
      (spots.map fun spot => spot.2.1).Nodup ∧
      (∀ spot ∈ spots, table.get spot.2.1.id = none ∧
        (f.value? spot.2.1).bind ValueInfo.block = some spot.1) ∧
      positions = spots.foldl (fun table spot => table.set spot.2.1.id (some (spot.1, spot.2.2)))
        table := by
  induction spots generalizing table with
  | nil =>
    simp only [foldlM_nil, map_nil, nodup_nil, not_mem_nil, false_implies,
      implies_true, true_and, foldl_nil]
    exact ⟨fun h => (Except.ok.inj h).symm, fun h => congrArg _ h.symm⟩
  | cons spot spots ih =>
    obtain ⟨b, v, place⟩ := spot
    have hstep : f.notePosition b table (v, place) =
        if (table.get v.id).isSome then .error (.duplicateDefinition v)
        else if (f.value? v).bind ValueInfo.block ≠ some b then
          .error (.wrongBlock v b ((f.value? v).bind ValueInfo.block))
        else .ok (table.set v.id (some (b, place))) := rfl
    rw [foldlM_cons, bind_eq_ok_iff, hstep]
    simp only [map_cons, nodup_cons, forall_mem_cons, foldl_cons]
    constructor
    · rintro ⟨next, hnext, hrest⟩
      split at hnext
      · cases hnext
      next hfree =>
        split at hnext
        · cases hnext
        next hhome =>
          obtain rfl := Except.ok.inj hnext
          obtain ⟨hnodup, hall, rfl⟩ := ih.mp hrest
          have hne : ∀ spot ∈ spots, spot.2.1.id ≠ v.id := by
            intro spot hspot heq
            have := (hall spot hspot).1
            rw [SideTable.get_set, if_pos heq] at this
            cases this
          refine ⟨⟨fun hmem => ?_, hnodup⟩, ⟨⟨?_, not_not.mp hhome⟩, fun spot hspot => ?_⟩, rfl⟩
          · obtain ⟨spot, hspot, heq⟩ := mem_map.mp hmem
            exact hne spot hspot (congrArg Value.id heq)
          · exact Option.not_isSome_iff_eq_none.mp hfree
          · have := hall spot hspot
            rwa [SideTable.get_set, if_neg (hne spot hspot)] at this
    · rintro ⟨⟨hfresh, hnodup⟩, ⟨⟨hnone, hhome⟩, hall⟩, rfl⟩
      refine ⟨_, ?_, ih.mpr ⟨hnodup, fun spot hspot => ?_, rfl⟩⟩
      · rw [if_neg (by simp [hnone]), if_neg (not_not.mpr hhome)]
      · have hne : spot.2.1.id ≠ v.id := fun heq =>
          hfresh (mem_map.mpr ⟨spot, hspot, Value.ext heq⟩)
        rw [SideTable.get_set, if_neg hne]
        exact hall spot hspot

lemma get_foldl_set {spots : List (Block × Value × Nat)}
    (hnodup : (spots.map fun spot => spot.2.1).Nodup) (table : Positions) (v : Value) (b : Block)
    (place : Nat) :
    (spots.foldl (fun table spot => table.set spot.2.1.id (some (spot.1, spot.2.2))) table).get
        v.id = some (b, place) ↔
      (b, v, place) ∈ spots ∨
        v ∉ spots.map (fun spot => spot.2.1) ∧ table.get v.id = some (b, place) := by
  induction spots generalizing table with
  | nil => simp
  | cons spot spots ih =>
    obtain ⟨c, w, k⟩ := spot
    obtain ⟨hfresh, hrest⟩ := nodup_cons.mp hnodup
    rw [foldl_cons, ih hrest, SideTable.get_set]
    simp only [map_cons, mem_cons, not_or, Prod.mk.injEq]
    by_cases hv : v = w
    · subst hv
      have hnot : (b, v, place) ∉ spots := fun h => hfresh (mem_map.mpr ⟨_, h, rfl⟩)
      simp only [hnot, hfresh, not_false_eq_true, true_and, if_true, Option.some.injEq,
        Prod.mk.injEq, not_true_eq_false, false_and, or_false, false_or]
      constructor
      · rintro ⟨rfl, rfl⟩
        exact ⟨rfl, rfl⟩
      · rintro ⟨rfl, rfl⟩
        exact ⟨rfl, rfl⟩
    · have hid : v.id ≠ w.id := fun h => hv (Value.ext h)
      simp [hv, hid]

/-- Positions are noted if every value stands in one place, and records its block. -/
lemma positions_eq_ok_iff :
    (∃ positions, f.positions = .ok positions) ↔
      f.placedValues.Nodup ∧ Homed f := by
  rw [Function.positions, foldlM_flatten]
  change (∃ positions, (spots f).foldlM _ _ = _) ↔ _
  simp only [foldlM_notePosition, spots_values, exists_and_left, exists_eq, and_true]
  refine and_congr_right fun _ => ⟨fun h b hb v hv => ?_, fun h spot hspot => ?_⟩
  · obtain ⟨place, hget⟩ := mem_iff_getElem?.mp hv
    exact (h (b, v, place) (mem_spots_iff.mpr ⟨hb, hget⟩)).2
  · obtain ⟨b, v, place⟩ := spot
    obtain ⟨hb, hget⟩ := mem_spots_iff.mp hspot
    exact ⟨by simp [SideTable.get], h b hb v (List.mem_of_getElem? hget)⟩

lemma positionsOf_of_eq_ok (h : f.positions = .ok positions) :
    PositionsOf f positions := by
  intro v b place
  rw [Function.positions, foldlM_flatten] at h
  obtain ⟨hnodup, -, rfl⟩ := foldlM_notePosition.mp h
  refine (get_foldl_set hnodup _ v b place).trans ?_
  rw [← mem_spots_iff]
  simp [spots, SideTable.get]

/-! ### The shape of a block -/

/-- The shape of a block: phis first, parameters only behind the phis of the entry, and the
terminator last. -/
structure Shaped (f : Function) (entry block : Block) : Prop where
  terminator_last : ∃ before last, f.insts block = before ++ [last] ∧
    f.instIs Inst.isTerminator last = true ∧
    ∀ v ∈ before, f.instIs Inst.isTerminator v = false
  phis_first : ∀ before v after, f.insts block = before ++ v :: after →
    f.instIs Inst.isPhi v = true → ∀ u ∈ before, f.instIs Inst.isPhi u = true
  phi_arity : ∀ v ∈ f.insts block, ∀ ty args, f.inst? v = some (.phi ty args) →
    args.length = (f.preds block).length
  params_first : ∀ before v after, f.insts block = before ++ v :: after →
    f.instIs Inst.isParam v = true → block = entry ∧
      ∀ u ∈ before, f.instIs Inst.isPhi u = true ∨ f.instIs Inst.isParam u = true

/-- One instruction stands where it may, given what is before and behind it. -/
structure StandsWell (f : Function) (entry block : Block) (before : List Value) (v : Value)
    (after : List Value) : Prop where
  terminator : f.instIs Inst.isTerminator v = true → after = []
  phi : f.instIs Inst.isPhi v = true → ∀ u ∈ before, f.instIs Inst.isPhi u = true
  arity : ∀ ty args, f.inst? v = some (.phi ty args) →
    args.length = (f.preds block).length
  param : f.instIs Inst.isParam v = true → block = entry ∧
    ∀ u ∈ before, f.instIs Inst.isPhi u = true ∨ f.instIs Inst.isParam u = true

/-- What may still come behind some instructions of a block. -/
def headState (f : Function) (entry block : Block) (before : List Value) :
    Function.HeadState where
  phis := before.all (f.instIs Inst.isPhi)
  params := decide (block = entry) &&
    before.all fun u => f.instIs Inst.isPhi u || f.instIs Inst.isParam u

lemma checkPlace_eq_ok_iff {before : List Value} {after : List Value}
    (hinsts : f.insts block = before ++ v :: after) {state : Function.HeadState} :
    f.checkPlace block (headState f entry block before) (v, before.length) =
        .ok state ↔
      StandsWell f entry block before v after ∧
        state = headState f entry block (before ++ [v]) := by
  have hlast : (before.length + 1 != (f.insts block).length) = decide (after ≠ []) := by
    rw [hinsts]
    cases after <;> simp
  have hnext : headState f entry block (before ++ [v]) =
      ⟨(headState f entry block before).phis && f.instIs Inst.isPhi v,
        (headState f entry block before).params &&
          (f.instIs Inst.isPhi v || f.instIs Inst.isParam v)⟩ := by
    simp [headState, Bool.and_assoc]
  have hphis : (headState f entry block before).phis = true ↔
      ∀ u ∈ before, f.instIs Inst.isPhi u = true := all_eq_true
  have hparams : (headState f entry block before).params = true ↔ block = entry ∧
      ∀ u ∈ before, f.instIs Inst.isPhi u = true ∨
        f.instIs Inst.isParam u = true := by
    simp [headState]
  rw [hnext]
  generalize headState f entry block before = now at *
  obtain ⟨phis, params⟩ := now
  rw [Function.checkPlace]
  rw [hlast]
  cases hinst : f.inst? v with
  | none =>
    have hstands : StandsWell f entry block before v after :=
      ⟨by simp [Function.instIs, hinst], by simp [Function.instIs, hinst], by simp [hinst],
        by simp [Function.instIs, hinst]⟩
    simp [Function.instIs, hinst, hstands, eq_comm]
  | some inst =>
    cases inst with
    | phi ty args =>
      have hstands : StandsWell f entry block before v after ↔
          phis = true ∧ args.length = (f.preds block).length := by
        rw [hphis]
        constructor
        · exact fun h => ⟨h.phi (by simp [Function.instIs, hinst, Inst.isPhi]), h.arity ty args hinst⟩
        · rintro ⟨h, harity⟩
          refine ⟨?_, fun _ => h, ?_, ?_⟩
          · simp [Function.instIs, hinst, Inst.isTerminator]
          · rintro ty' args' heq
            rw [hinst] at heq
            cases heq
            exact harity
          · simp [Function.instIs, hinst, Inst.isParam]
      rw [hstands]
      cases phis <;> simp [Function.instIs, hinst, Inst.isPhi, Inst.isTerminator]
      by_cases harity : args.length = (f.preds block).length <;> simp [harity, eq_comm]
    | param ty position =>
      have hstands : StandsWell f entry block before v after ↔ params = true := by
        rw [hparams]
        constructor
        · exact fun h => h.param (by simp [Function.instIs, hinst, Inst.isParam])
        · exact fun h => ⟨by simp [Function.instIs, hinst, Inst.isTerminator],
            by simp [Function.instIs, hinst, Inst.isPhi], by simp [hinst], fun _ => h⟩
      rw [hstands]
      cases params <;>
        simp [Function.instIs, hinst, Inst.isPhi, Inst.isParam, Inst.isTerminator, eq_comm]
    | _ =>
      have hstands : StandsWell f entry block before v after ↔
          (f.instIs Inst.isTerminator v = true → after = []) :=
        ⟨fun h => h.terminator, fun h => ⟨h, by simp [Function.instIs, hinst, Inst.isPhi],
          by simp [hinst], by simp [Function.instIs, hinst, Inst.isParam]⟩⟩
      rw [hstands]
      by_cases hafter : after = [] <;>
        simp [Function.instIs, hinst, Inst.isPhi, Inst.isParam, Inst.isTerminator, hafter, eq_comm]

lemma foldlM_checkPlace {before rest : List Value}
    (hinsts : f.insts block = before ++ rest) :
    (∃ state, (rest.zipIdx before.length).foldlM (f.checkPlace block)
        (headState f entry block before) = .ok state) ↔
      ∀ more v after, rest = more ++ v :: after →
        StandsWell f entry block (before ++ more) v after := by
  induction rest generalizing before with
  | nil =>
    refine ⟨fun _ more v after h => ?_, fun _ => ⟨_, rfl⟩⟩
    cases more <;> cases h
  | cons u rest ih =>
    have hnext : f.insts block = (before ++ [u]) ++ rest := by
      rw [hinsts, append_assoc, singleton_append]
    have hrec := ih hnext
    rw [length_append, length_singleton] at hrec
    simp only [zipIdx_cons, foldlM_cons, bind_eq_ok_iff, checkPlace_eq_ok_iff hinsts]
    constructor
    · rintro ⟨state, next, ⟨hu, rfl⟩, hrest⟩ more v after heq
      cases more with
      | nil =>
        obtain ⟨rfl, rfl⟩ := List.cons.inj heq
        rwa [append_nil]
      | cons x more =>
        obtain ⟨rfl, rfl⟩ := List.cons.inj heq
        have := hrec.mp ⟨state, hrest⟩ more v after rfl
        rwa [append_assoc, singleton_append] at this
    · intro h
      have hu := h [] u rest rfl
      rw [append_nil] at hu
      obtain ⟨state, hstate⟩ := hrec.mpr fun more v after heq => by
        have := h (u :: more) v after (by rw [heq, cons_append])
        rwa [append_assoc, singleton_append]
      exact ⟨state, _, ⟨hu, rfl⟩, hstate⟩

lemma checkShape_eq_ok_iff :
    f.checkShape entry block = .ok () ↔ Shaped f entry block := by
  have hfold := @foldlM_checkPlace block f entry [] (f.insts block) rfl
  have hstart : headState f entry block [] = ⟨true, decide (block = entry)⟩ := by
    simp [headState]
  simp only [length_nil, nil_append, hstart] at hfold
  have hcheck : f.checkShape entry block = .ok () ↔
      (f.terminator? block).isSome ∧ ∃ state, (f.insts block).zipIdx.foldlM
        (f.checkPlace block) ⟨true, decide (block = entry)⟩ = .ok state := by
    rw [Function.checkShape]
    cases hterm : f.terminator? block with
    | none => simp [bind, Except.bind, throw, throwThe, MonadExceptOf.throw]
    | some last =>
      simp only [Option.isNone_some, Bool.false_eq_true, if_false, Option.isSome_some, true_and]
      exact bind_eq_ok_iff.trans ⟨fun ⟨state, h, _⟩ => ⟨state, h⟩, fun ⟨state, h⟩ => ⟨state, h, rfl⟩⟩
  rw [hcheck, hfold, Function.terminator?_isSome_iff]
  constructor
  · rintro ⟨⟨last, hlast, hterm⟩, hall⟩
    obtain ⟨before, hbefore⟩ := getLast?_eq_some_iff.mp hlast
    refine ⟨⟨before, last, hbefore, hterm, fun v hv => ?_⟩, fun b v a h => (hall b v a h).phi,
      fun v hv => ?_, fun b v a h => (hall b v a h).param⟩
    · obtain ⟨front, back, rfl⟩ := append_of_mem hv
      by_contra hnot
      have := (hall front v (back ++ [last]) (by rw [hbefore]; simp)).terminator
        (Bool.eq_true_of_not_eq_false hnot)
      simp at this
    · obtain ⟨front, back, heq⟩ := append_of_mem hv
      exact (hall front v back heq).arity
  · rintro ⟨⟨before, last, hbefore, hterm, hnone⟩, hphis, harity, hparams⟩
    refine ⟨⟨last, by rw [hbefore, getLast?_concat], hterm⟩, fun front v back heq => ?_⟩
    refine ⟨fun hv => ?_, hphis front v back heq, ?_, hparams front v back heq⟩
    · by_contra hback
      obtain ⟨back', last', rfl⟩ := (eq_nil_or_concat back).resolve_left hback
      rw [hbefore, concat_eq_append, ← cons_append, ← append_assoc] at heq
      have hmem : v ∈ before := by
        rw [(append_inj' heq rfl).1]
        exact mem_append_right _ mem_cons_self
      rw [hnone v hmem] at hv
      cases hv
    · exact harity v (heq ▸ mem_append_right _ mem_cons_self)

/-! ### Recorded predecessors -/

/-- The recorded predecessors of a block are the sources of the edges into it, as many times. -/
def PredsRight (f : Function) (b : Block) : Prop :=
  ∀ p, (f.preds b).count p =
    if p ∈ f.layout then (f.successors p).count b else 0

lemma sortBlocks_eq_iff {xs ys : List Block} :
    Function.sortBlocks xs = Function.sortBlocks ys ↔ xs.Perm ys := by
  have hperm (zs : List Block) : (Function.sortBlocks zs).Perm zs := mergeSort_perm ..
  constructor
  · intro h
    exact (hperm xs).symm.trans (h ▸ hperm ys)
  · intro h
    have hsorted (zs : List Block) : (Function.sortBlocks zs).Pairwise fun a b => a.id ≤ b.id := by
      have := @List.pairwise_mergeSort _ (fun a b : Block => decide (a.id ≤ b.id))
        (fun a b c => by simpa using Nat.le_trans) (fun a b => by simpa using Nat.le_total ..) zs
      simpa [Function.sortBlocks] using this
    have hantisymm (a b : Block) (_ : a ∈ Function.sortBlocks xs) (_ : b ∈ Function.sortBlocks ys)
        (hab : a.id ≤ b.id) (hba : b.id ≤ a.id) : a = b :=
      Block.ext (Nat.le_antisymm hab hba)
    exact List.Perm.eq_of_pairwise hantisymm (hsorted xs) (hsorted ys)
      ((hperm xs).trans (h.trans (hperm ys).symm))

lemma checkPreds_eq_ok_iff (hnodup : f.layout.Nodup) :
    f.checkPreds b = .ok () ↔ PredsRight f b := by
  rw [Function.checkPreds, if_ok_eq_ok_iff, sortBlocks_eq_iff, perm_iff_count]
  refine forall_congr' fun p => ?_
  rw [Function.edgeSources, count_flatMap_replicate hnodup]

/-! ### Sound functions -/

/-- On every path, the operands of an instruction are computed before it is executed. The arguments
of a phi are used at the ends of the predecessors that they come from. -/
structure OperandsDefined (f : Function) (entry block : Block) (place : Nat) (inst : Inst) :
    Prop where
  placed : ∀ w ∈ inst.operands, w ∈ f.placedValues
  before : inst.isPhi = false → ∀ w ∈ inst.operands, DefinedBefore f entry w block place
  incoming : ∀ ty args, inst = .phi ty args → ∀ edge ∈ (f.preds block).zip args,
    DefinedBy f entry edge.2 edge.1

/-- A function in sound SSA form, its types apart. -/
structure Sound (f : Function) (entry : Block) : Prop where
  entry_eq : f.entry? = some entry
  entry_preds : f.preds entry = []
  placed_once : f.placedValues.Nodup
  homed : Homed f
  reached : ∀ b ∈ f.layout, Reached f entry b
  shaped : ∀ b ∈ f.layout, Shaped f entry b
  preds_right : ∀ b ∈ f.layout, PredsRight f b
  operands : ∀ b ∈ f.layout, ∀ (place : Nat) v inst,
    (f.insts b)[place]? = some v → f.inst? v = some inst →
      OperandsDefined f entry b place inst

lemma insts_ne_nil_of_shaped (h : Shaped f entry b) : f.insts b ≠ [] := by
  obtain ⟨before, last, heq, -⟩ := h.terminator_last
  simp [heq]

/-- A block that is listed twice would have its instructions placed twice. -/
lemma layout_nodup_of_placedValues (hnodup : f.placedValues.Nodup)
    (hne : ∀ b ∈ f.layout, f.insts b ≠ []) : f.layout.Nodup := by
  obtain ⟨-, hdisjoint⟩ := nodup_flatMap.mp hnodup
  refine hdisjoint.imp_of_mem fun {a b} ha hb hab heq => ?_
  subst heq
  obtain ⟨v, hv⟩ := exists_mem_of_ne_nil _ (hne a ha)
  exact hab hv hv

lemma mem_placedValues_iff :
    v ∈ f.placedValues ↔ ∃ b ∈ f.layout, v ∈ f.insts b :=
  mem_flatMap

lemma reached_mem_layout (hentry : f.entry? = some entry)
    (hclosed : ∀ b ∈ f.layout, ∀ t ∈ f.successors b, t ∈ f.layout)
    (h : Reached f entry b) : b ∈ f.layout := by
  refine h.induction ?_ fun p c _ hedge hp => hclosed p hp c hedge
  exact mem_of_head? hentry

/-- Once predecessors are right, they agree with the edges among the blocks that are reached. -/
lemma predsAgree_of_predsRight (hlisted : ∀ b, Reached f entry b → b ∈ f.layout)
    (h : ∀ b ∈ f.layout, PredsRight f b) : PredsAgree f entry := by
  intro p b hp hb
  rw [Edge, ← count_pos_iff, h b (hlisted b hb) p, if_pos (hlisted p hp), count_pos_iff]

/-! ### Operands -/

/-- What the verifier relies on when it comes to operands. -/
structure Surveyed (f : Function) (entry : Block) (positions : Positions)
    (doms : Dominators) : Prop where
  positions : PositionsOf f positions
  reached_iff : ∀ b, Reached f entry b ↔ b ∈ f.layout
  preds_right : ∀ b ∈ f.layout, PredsRight f b
  dominators : DominatorsOf f entry doms

namespace Surveyed

variable {doms : Dominators}

lemma predsAgree (h : Surveyed f entry positions doms) : PredsAgree f entry :=
  predsAgree_of_predsRight (fun b => (h.reached_iff b).mp) h.preds_right

section

variable {d : Block} {i : Nat} (h : Surveyed f entry positions doms)
  (hw : positions.get w.id = some (d, i))
include h hw

lemma place_unique {c : Block} (hc : Reached f entry c) {j : Nat}
    (hget : (f.insts c)[j]? = some w) : c = d ∧ j = i := by
  have := (h.positions w c j).mpr ⟨(h.reached_iff c).mp hc, hget⟩
  rw [hw] at this
  cases this
  exact ⟨rfl, rfl⟩

lemma home_unique {c : Block} (hc : Reached f entry c) (hmem : w ∈ f.insts c) :
    c = d := by
  obtain ⟨j, hget⟩ := mem_iff_getElem?.mp hmem
  exact (h.place_unique hw hc hget).1

lemma mem_home : w ∈ f.insts d :=
  List.mem_of_getElem? ((h.positions w d i).mp hw).2

lemma home_reached : Reached f entry d :=
  (h.reached_iff d).mpr ((h.positions w d i).mp hw).1

/-- A value is computed by the end of a block on every path if its block dominates this block. -/
lemma definedBy_iff {p : Block} :
    DefinedBy f entry w p ↔ Dominates (Edge f) entry d p := by
  constructor
  · intro hdef trail hpath
    obtain ⟨c, hc, hwc⟩ := hdef trail hpath
    rwa [h.home_unique hw (hpath.reachable_of_mem hc) hwc] at hc
  · exact fun hdom trail hpath => ⟨d, hdom trail hpath, h.mem_home hw⟩

end

section

variable (h : Surveyed f entry positions doms)
include h

lemma definedBefore_other_iff {d : Block} {i : Nat} (hw : positions.get w.id = some (d, i))
    (hb : Reached f entry b) (hne : d ≠ b) :
    DefinedBefore f entry w b place ↔ Dominates (Edge f) entry d b := by
  constructor
  · intro hdef trail hpath
    obtain ⟨earlier, rfl⟩ := hpath.head_eq
    rcases hdef earlier hpath with hmem | ⟨c, hc, hwc⟩
    · exact absurd (h.home_unique hw hb (mem_of_mem_take hmem)).symm hne
    · have hreach := hpath.reachable_of_mem (mem_cons_of_mem _ hc)
      rw [h.home_unique hw hreach hwc] at hc
      exact mem_cons_of_mem _ hc
  · intro hdom earlier hpath
    rcases mem_cons.mp (hdom _ hpath) with heq | hmem
    · exact absurd heq hne
    · exact .inr ⟨d, hmem, h.mem_home hw⟩

lemma definedBefore_same_iff {i : Nat} (hw : positions.get w.id = some (b, i)) :
    DefinedBefore f entry w b place ↔ i < place := by
  have hget := ((h.positions w b i).mp hw).2
  constructor
  · intro hdef
    -- on a path that visits the block once, the value is computed in the block itself
    obtain ⟨trail, hpath⟩ := h.home_reached hw
    obtain ⟨short, hshort, -, hnodup⟩ := hpath.exists_nodup
    obtain ⟨earlier, rfl⟩ := hshort.head_eq
    rcases hdef earlier hshort with hmem | ⟨c, hc, hwc⟩
    · obtain ⟨j, hj, hjw⟩ := List.mem_take_iff_getElem.mp hmem
      have hlt : j < (f.insts b).length := by omega
      have hji := (h.place_unique hw (h.home_reached hw)
        (List.getElem?_eq_getElem hlt ▸ congrArg some hjw)).2
      omega
    · have hreach := hshort.reachable_of_mem (mem_cons_of_mem _ hc)
      rw [h.home_unique hw hreach hwc] at hc
      exact absurd hc (nodup_cons.mp hnodup).1
  · intro hlt earlier _
    left
    obtain ⟨hi, hwi⟩ := List.getElem?_eq_some_iff.mp hget
    exact List.mem_take_iff_getElem.mpr ⟨i, by omega, hwi⟩

lemma definedBefore_iff (hb : b ∈ f.layout) (hv : (f.insts b)[place]? = some v)
    (hphi : f.instIs Inst.isPhi v = false) {definition : Block × Nat}
    (hw : positions.get w.id = some definition) (slot : Nat) :
    f.definedBefore doms positions b v slot definition = true ↔
      DefinedBefore f entry w b place := by
  obtain ⟨d, i⟩ := definition
  rw [Function.definedBefore, hphi]
  simp only [Bool.false_eq_true, if_false]
  split
  next heq =>
    subst heq
    rw [(h.positions v d place).mpr ⟨hb, hv⟩, h.definedBefore_same_iff hw]
    simp
  next hne =>
    have hreach := (h.reached_iff b).mpr hb
    rw [h.definedBefore_other_iff hw hreach hne,
      h.dominators.dominates_iff h.predsAgree (h.home_reached hw)]
    simp [hreach]

lemma definedBefore_phi_iff (hb : b ∈ f.layout)
    (hphi : f.instIs Inst.isPhi v = true) {definition : Block × Nat}
    (hw : positions.get w.id = some definition) (slot : Nat) :
    f.definedBefore doms positions b v slot definition = true ↔
      ∃ p, (f.preds b)[slot]? = some p ∧ DefinedBy f entry w p := by
  obtain ⟨d, i⟩ := definition
  rw [Function.definedBefore, if_pos hphi, Option.any_eq_true]
  refine exists_congr fun p => and_congr_right fun hp => ?_
  have hmem : p ∈ f.layout := by
    by_contra hnot
    have hcount := h.preds_right b hb p
    rw [if_neg hnot, count_eq_zero] at hcount
    exact hcount (List.mem_of_getElem? hp)
  rw [h.definedBy_iff hw, h.dominators.dominates_iff h.predsAgree (h.home_reached hw)]
  simp [(h.reached_iff p).mpr hmem]

lemma mem_placedValues_iff :
    w ∈ f.placedValues ↔ ∃ definition, positions.get w.id = some definition := by
  rw [Proofs.mem_placedValues_iff]
  constructor
  · rintro ⟨b, hb, hw⟩
    obtain ⟨place, hget⟩ := mem_iff_getElem?.mp hw
    exact ⟨(b, place), (h.positions w b place).mpr ⟨hb, hget⟩⟩
  · rintro ⟨⟨b, place⟩, hw⟩
    obtain ⟨hb, hget⟩ := (h.positions w b place).mp hw
    exact ⟨b, hb, List.mem_of_getElem? hget⟩

end

section

variable (h : Surveyed f entry positions doms) (hb : b ∈ f.layout)
  (hshape : Shaped f entry b) (hv : (f.insts b)[place]? = some v)
include h hb hshape hv

lemma operandsDefined_iff (hinst : f.inst? v = some inst) :
    OperandsDefined f entry b place inst ↔
      ∀ w (slot : Nat), inst.operands[slot]? = some w → ∃ definition,
        positions.get w.id = some definition ∧
          f.definedBefore doms positions b v slot definition = true := by
  have hmem {w : Value} : w ∈ inst.operands ↔ ∃ slot : Nat, inst.operands[slot]? = some w :=
    mem_iff_getElem?
  have hplaced (hall : ∀ w (slot : Nat), inst.operands[slot]? = some w → ∃ definition,
      positions.get w.id = some definition ∧
        f.definedBefore doms positions b v slot definition = true) :
      ∀ w ∈ inst.operands, w ∈ f.placedValues := by
    intro w hw
    obtain ⟨slot, hslot⟩ := hmem.mp hw
    obtain ⟨definition, hdef, -⟩ := hall w slot hslot
    exact h.mem_placedValues_iff.mpr ⟨definition, hdef⟩
  cases hphi : inst.isPhi with
  | false =>
    have hnot : f.instIs Inst.isPhi v = false := by simp [Function.instIs, hinst, hphi]
    constructor
    · intro hdefined w slot hslot
      have hw := hmem.mpr ⟨slot, hslot⟩
      obtain ⟨definition, hdef⟩ := h.mem_placedValues_iff.mp (hdefined.placed w hw)
      exact ⟨definition, hdef,
        (h.definedBefore_iff hb hv hnot hdef slot).mpr (hdefined.before hphi w hw)⟩
    · intro hall
      refine ⟨hplaced hall, fun _ w hw => ?_, fun ty args heq => ?_⟩
      · obtain ⟨slot, hslot⟩ := hmem.mp hw
        obtain ⟨definition, hdef, hbefore⟩ := hall w slot hslot
        exact (h.definedBefore_iff hb hv hnot hdef slot).mp hbefore
      · rw [heq] at hphi
        cases hphi
  | true =>
    have hyes : f.instIs Inst.isPhi v = true := by simp [Function.instIs, hinst, hphi]
    obtain ⟨ty, args, rfl⟩ : ∃ ty args, inst = .phi ty args := by
      cases inst <;> first | exact ⟨_, _, rfl⟩ | cases hphi
    have hlen := hshape.phi_arity v (List.mem_of_getElem? hv) ty args hinst
    constructor
    · intro hdefined w slot hslot
      obtain ⟨definition, hdef⟩ :=
        h.mem_placedValues_iff.mp (hdefined.placed w (hmem.mpr ⟨slot, hslot⟩))
      have hlt : slot < (f.preds b).length := by
        rw [← hlen]
        exact (List.getElem?_eq_some_iff.mp hslot).1
      have hp := List.getElem?_eq_getElem hlt
      refine ⟨definition, hdef, (h.definedBefore_phi_iff hb hyes hdef slot).mpr
        ⟨_, hp, hdefined.incoming ty args rfl (_, w) ?_⟩⟩
      exact List.mem_of_getElem? (List.getElem?_zip_eq_some.mpr ⟨hp, hslot⟩)
    · intro hall
      refine ⟨hplaced hall, fun hnot => (by cases hnot), fun ty' args' heq => ?_⟩
      cases heq
      rintro ⟨p, w⟩ hedge
      obtain ⟨slot, hslot⟩ := mem_iff_getElem?.mp hedge
      obtain ⟨hp, hw⟩ := List.getElem?_zip_eq_some.mp hslot
      obtain ⟨definition, hdef, hbefore⟩ := hall w slot hw
      obtain ⟨p', hp', hby⟩ := (h.definedBefore_phi_iff hb hyes hdef slot).mp hbefore
      rw [hp] at hp'
      cases hp'
      exact hby

lemma checkOperands_eq_ok_iff (hinst : f.inst? v = some inst) :
    f.checkOperands doms positions b v = .ok () ↔
      (∀ w ∈ inst.operands, f.ty w ≠ .void) ∧
        OperandsDefined f entry b place inst := by
  have hcheck (w : Value) (slot : Nat) :
      f.checkOperand doms positions b v (w, slot) = .ok () ↔
        f.ty w ≠ .void ∧ ∃ definition, positions.get w.id = some definition ∧
          f.definedBefore doms positions b v slot definition = true := by
    rw [Function.checkOperand]
    cases positions.get w.id with
    | none => simp
    | some definition =>
      by_cases hvoid : f.ty w = .void
      · simp [hvoid]
      · by_cases hbefore : f.definedBefore doms positions b v slot definition = true
          <;> simp [hvoid, hbefore]
  rw [Function.checkOperands, hinst, forM_eq_ok_iff, h.operandsDefined_iff hb hshape hv hinst]
  simp only [Option.map_some, Option.getD_some, Prod.forall, mk_mem_zipIdx_iff_getElem?,
    hcheck]
  constructor
  · refine fun hall => ⟨fun w hw => ?_, fun w slot hslot => (hall w slot hslot).2⟩
    obtain ⟨slot, hslot⟩ := mem_iff_getElem?.mp hw
    exact (hall w slot hslot).1
  · exact fun hall w slot hslot => ⟨hall.1 w (List.mem_of_getElem? hslot), hall.2 w slot hslot⟩

/-- Of operands that are defined before their use, only those without a value are refused. -/
lemma checkOperands_eq_error (hinst : f.inst? v = some inst)
    (hdefined : OperandsDefined f entry b place inst)
    (herror : f.checkOperands doms positions b v = .error problem) :
    ∃ w, problem = .voidOperand v w := by
  rw [Function.checkOperands, hinst] at herror
  obtain ⟨⟨w, slot⟩, hmem, hw⟩ := exists_of_forM_eq_error herror
  obtain ⟨definition, hdef, hbefore⟩ := (h.operandsDefined_iff hb hshape hv hinst).mp hdefined w slot
    (mk_mem_zipIdx_iff_getElem?.mp hmem)
  rw [Function.checkOperand] at hw
  simp only [hdef, hbefore, if_true] at hw
  split at hw
  · exact ⟨w, (Except.error.inj hw).symm⟩
  · cases hw

end

end Surveyed

/-! ### Types -/

/-- What the types of the operands of an instruction have to be. -/
def TypeRule (f : Function) (types : LayoutTable) : Inst → Prop
  | .phi ty args => ∀ arg ∈ args, f.ty arg = ty
  | .binary _ ty lhs rhs => f.ty lhs = ty ∧ f.ty rhs = ty
  | .unary _ ty operand => f.ty operand = ty
  | .icmp _ lhs rhs => f.ty rhs = f.ty lhs
  | .fcmp _ lhs rhs => f.ty lhs = .f64 ∧ f.ty rhs = .f64
  | .load _ address | .fieldPtr _ address _ | .store address _ => f.ty address = .ptr
  | .condBr condition _ _ => f.ty condition = .i1
  | .new agg => ∃ layout, types.get? agg = some layout
  | .makeAgg agg fields => ∃ layout, types.get? agg = some layout ∧
    fields.map f.ty = layout.valueFields
  | .extractField ty aggregate position => ty ≠ .void ∧ ∃ agg layout,
    f.ty aggregate = .agg agg ∧ types.get? agg = some layout ∧
      layout.fields[position]? = some ty
  | .ret (some result) => f.ty result = f.ret
  | .ret none => f.ret = .void
  | _ => True

lemma expectTy_eq_ok_iff {operand : Value} {expected : Ty} :
    f.expectTy v operand expected = .ok () ↔ f.ty operand = expected :=
  if_ok_eq_ok_iff

lemma forM_expectTy_zip {fields : List Value} {tys : List Ty} (hlen : fields.length = tys.length) :
    ((fields.zip tys).forM fun (field, ty) => f.expectTy v field ty) = .ok () ↔
      fields.map f.ty = tys := by
  rw [forM_eq_ok_iff]
  induction fields generalizing tys with
  | nil => cases tys <;> simp_all
  | cons field fields ih =>
    cases tys with
    | nil => simp at hlen
    | cons ty tys =>
      rw [zip_cons_cons, forall_mem_cons, ih (by simpa using hlen), expectTy_eq_ok_iff]
      simp

lemma layoutOf_eq_ok_iff {agg : Nat} {layout : Layout} :
    Function.layoutOf types v agg = .ok layout ↔ types.get? agg = some layout := by
  rw [Function.layoutOf]
  cases types.get? agg <;> simp

lemma checkTypes_eq_ok_iff (hinst : f.inst? v = some inst) :
    f.checkTypes types v = .ok () ↔ TypeRule f types inst := by
  rw [Function.checkTypes, hinst]
  cases inst with
  | phi ty args => simp only [forM_eq_ok_iff, expectTy_eq_ok_iff, TypeRule]
  | binary op ty lhs rhs | fcmp predicate lhs rhs =>
    exact seq_eq_ok_iff.trans (and_congr expectTy_eq_ok_iff expectTy_eq_ok_iff)
  | unary op ty operand => exact expectTy_eq_ok_iff
  | icmp predicate lhs rhs => exact expectTy_eq_ok_iff
  | load ty address | fieldPtr agg address position | store address stored =>
    exact expectTy_eq_ok_iff
  | condBr condition thenBlock elseBlock => exact expectTy_eq_ok_iff
  | new agg =>
    refine bind_eq_ok_iff.trans ?_
    simp only [layoutOf_eq_ok_iff, TypeRule]
    exact exists_congr fun layout => ⟨fun h => h.1, fun h => ⟨h, rfl⟩⟩
  | makeAgg agg fields =>
    refine bind_eq_ok_iff.trans ?_
    simp only [layoutOf_eq_ok_iff, TypeRule]
    refine exists_congr fun layout => and_congr_right fun _ => ?_
    by_cases hlen : fields.length = layout.valueFields.length
    · rw [if_neg (not_not.mpr hlen)]
      exact forM_expectTy_zip hlen
    · rw [if_pos hlen]
      refine ⟨fun h => (by cases h), fun h => absurd ?_ hlen⟩
      rw [← h, length_map]
  | extractField ty aggregate position =>
    refine bind_eq_ok_iff.trans ?_
    simp only [TypeRule]
    have hfield {field : Option Ty} :
        (if field = some ty ∧ ty ≠ .void then (pure () : Except Malformation Unit)
          else throw (.badField v aggregate position ty)) = .ok () ↔
            field = some ty ∧ ty ≠ .void := by
      split <;> simp_all [pure, Except.pure, throw, throwThe, MonadExceptOf.throw]
    simp only [hfield]
    cases hty : f.ty aggregate with
    | agg agg =>
      constructor
      · rintro ⟨field, hget, rfl, hvoid⟩
        obtain ⟨layout, hlayout, hpure⟩ := bind_eq_ok_iff.mp hget
        exact ⟨hvoid, agg, layout, rfl, layoutOf_eq_ok_iff.mp hlayout, Except.ok.inj hpure⟩
      · rintro ⟨hvoid, agg', layout, heq, hlayout, hget⟩
        cases heq
        exact ⟨some ty, bind_eq_ok_iff.mpr ⟨layout, layoutOf_eq_ok_iff.mpr hlayout,
          congrArg Except.ok hget⟩, rfl, hvoid⟩
    | _ =>
      simp only [Function.fieldOf, reduceCtorEq, false_and, exists_false, and_false, iff_false]
      rintro ⟨field, hfield, rfl, -⟩
      cases hfield
  | ret value =>
    cases value with
    | none => exact if_ok_eq_ok_iff
    | some result => exact if_ok_eq_ok_iff
  | _ => simp [TypeRule]

def isTypeFault : Malformation → Bool
  | .typeMismatch .. | .returnType .. | .voidOperand .. | .unknownAgg .. | .aggArity ..
  | .badField .. => true
  | _ => false

lemma expectTy_eq_error {operand : Value} {expected : Ty}
    (h : f.expectTy v operand expected = .error problem) : isTypeFault problem = true := by
  rw [Function.expectTy] at h
  split at h
  · cases h
  · cases h
    rfl

lemma layoutOf_eq_error {agg : Nat} (h : Function.layoutOf types v agg = .error problem) :
    isTypeFault problem = true := by
  rw [Function.layoutOf] at h
  split at h
  · cases h
  · cases h
    rfl

lemma checkTypes_eq_error (h : f.checkTypes types v = .error problem) :
    isTypeFault problem = true := by
  rw [Function.checkTypes] at h
  split at h
  · obtain ⟨arg, -, harg⟩ := exists_of_forM_eq_error h
    exact expectTy_eq_error harg
  · rcases bind_eq_error_iff.mp h with h | ⟨-, -, h⟩ <;> exact expectTy_eq_error h
  · exact expectTy_eq_error h
  · exact expectTy_eq_error h
  · rcases bind_eq_error_iff.mp h with h | ⟨-, -, h⟩ <;> exact expectTy_eq_error h
  · exact expectTy_eq_error h
  · exact expectTy_eq_error h
  · exact expectTy_eq_error h
  · exact expectTy_eq_error h
  · rcases bind_eq_error_iff.mp h with h | ⟨-, -, h⟩
    · exact layoutOf_eq_error h
    · cases h
  · rcases bind_eq_error_iff.mp h with h | ⟨layout, -, h⟩
    · exact layoutOf_eq_error h
    · dsimp only at h
      split at h
      · cases h
        rfl
      · obtain ⟨field, -, hfield⟩ := exists_of_forM_eq_error h
        exact expectTy_eq_error hfield
  · rcases bind_eq_error_iff.mp h with h | ⟨field, -, h⟩
    · unfold Function.fieldOf at h
      split at h
      · rcases bind_eq_error_iff.mp h with h | ⟨layout, -, h⟩
        · exact layoutOf_eq_error h
        · cases h
      · cases h
    · split at h
      · cases h
      · cases h
        rfl
  all_goals
    first
    | cases h
    | split at h
      · cases h
      · cases h
        rfl

/-- A body keeps the type rules, and no operand is without a value. -/
def WellTyped (f : Function) (types : LayoutTable) : Prop :=
  ∀ b ∈ f.layout, ∀ v ∈ f.insts b, ∀ inst, f.inst? v = some inst →
    (∀ w ∈ inst.operands, f.ty w ≠ .void) ∧ TypeRule f types inst

/-! ### Verification as a whole -/

/-- Which blocks are reached is read off the order alone, whatever the predecessors are. -/
lemma isReachable_iff_of_compute {doms : Dominators} (hentry : f.entry? = some entry)
    (h : Dominators.compute f = .ok doms) (b : Block) :
    doms.isReachable b = true ↔ Reached f entry b := by
  have ho := reversePostorder_orderOf hentry
  have hrank : doms.rank = Dominators.ranks (Dominators.reversePostorder f) := by
    rw [Dominators.compute] at h
    split at h
    · obtain ⟨found, -, h⟩ := bind_eq_ok_iff.mp h
      obtain ⟨parents, -, h⟩ := bind_eq_ok_iff.mp h
      rw [← Except.ok.inj h]
    · cases h
  rw [Dominators.isReachable, hrank, ranks_get ho.nodup]
  refine Iff.trans ?_ (ho.mem_iff b)
  split <;> simp_all

/-- What an accepted body has been checked for. -/
lemma checkBody_eq_ok_iff {doms : Dominators} :
    f.checkBody types positions doms = .ok () ↔
      ∃ entry, f.entry? = some entry ∧ f.preds entry = [] ∧
        (∀ b ∈ f.layout, doms.isReachable b = true ∧
          f.checkShape entry b = .ok ()) ∧
        (∀ b ∈ f.layout, f.checkPreds b = .ok ()) ∧
        ∀ b ∈ f.layout, ∀ v ∈ f.insts b,
          f.checkOperands doms positions b v = .ok () ∧
            f.checkTypes types v = .ok () := by
  rw [Function.checkBody]
  cases f.entry? with
  | none => simp [throw, throwThe, MonadExceptOf.throw]
  | some entry =>
    simp only [Option.some.injEq, ↓existsAndEq, true_and]
    by_cases hpreds : f.preds entry = []
    · have hreach (b : Block) : (do
          unless doms.isReachable b do throw (Malformation.unreachable b)
          f.checkShape entry b) = .ok () ↔
            doms.isReachable b = true ∧ f.checkShape entry b = .ok () := by
        split
        next h => simp [h]
        next h => simp [h, throw, throwThe, MonadExceptOf.throw, bind, Except.bind]
      simp only [hpreds, isEmpty_nil, if_true, true_and]
      refine seq_eq_ok_iff.trans (and_congr ?_ (seq_eq_ok_iff.trans (and_congr ?_ ?_)))
      · rw [forM_eq_ok_iff]
        exact forall₂_congr fun b _ => hreach b
      · exact forM_eq_ok_iff
      · rw [forM_eq_ok_iff]
        refine forall₂_congr fun b _ => forM_eq_ok_iff.trans (forall₂_congr fun v _ => ?_)
        exact seq_eq_ok_iff
    · simp [hpreds, throw, throwThe, MonadExceptOf.throw, bind, Except.bind]

lemma Sound.mem_entry (h : Sound f entry) : entry ∈ f.layout := by
  have := h.entry_eq
  exact mem_of_head? this

section

variable (h : Sound f entry) (hlisted : ∀ b, Reached f entry b → b ∈ f.layout)
  (hlayout : ∀ b ∈ f.layout, b.id < f.blocks.size)
include h hlisted hlayout

/-- In a sound function whose blocks exist, all that is computed before operands are checked is
right. -/
lemma Sound.surveyed : ∃ positions doms, f.positions = .ok positions ∧
      Dominators.compute f = .ok doms ∧
      Surveyed f entry positions doms := by
  obtain ⟨positions, hpositions⟩ := positions_eq_ok_iff.mpr ⟨h.placed_once, h.homed⟩
  obtain ⟨doms, hcompute, hdominators⟩ := compute_dominatorsOf h.entry_eq
    (fun b hb => hlayout b (hlisted b hb)) (predsAgree_of_predsRight hlisted h.preds_right)
  exact ⟨positions, doms, hpositions, hcompute, positionsOf_of_eq_ok hpositions,
    fun b => ⟨hlisted b, h.reached b⟩, h.preds_right, hdominators⟩

lemma Sound.verify_cases (types : LayoutTable) : ∃ verdict, f.verify types = .ok verdict ∧
      ∀ problem, verdict = .error problem → isTypeFault problem = true := by
  obtain ⟨positions, doms, hpositions, hcompute, hsurvey⟩ := h.surveyed hlisted hlayout
  have hnodup := layout_nodup_of_placedValues h.placed_once fun b hb =>
    insts_ne_nil_of_shaped (h.shaped b hb)
  refine ⟨f.checkBody types positions doms, ?_, fun problem hproblem => ?_⟩
  · rw [Function.verify, hpositions]
    exact bind_eq_ok_iff.mpr ⟨doms, hcompute, rfl⟩
  have hblocks : (f.layout.forM fun b => do
      unless doms.isReachable b do throw (Malformation.unreachable b)
      f.checkShape entry b) = .ok () := by
    refine forM_eq_ok_iff.mpr fun b hb => ?_
    rw [(isReachable_iff_of_compute h.entry_eq hcompute b).mpr (h.reached b hb)]
    exact checkShape_eq_ok_iff.mpr (h.shaped b hb)
  have hpreds : f.layout.forM f.checkPreds = .ok () :=
    forM_eq_ok_iff.mpr fun b hb => (checkPreds_eq_ok_iff hnodup).mpr (h.preds_right b hb)
  rw [Function.checkBody, h.entry_eq] at hproblem
  simp only [h.entry_preds, isEmpty_nil, if_true] at hproblem
  rcases bind_eq_error_iff.mp hproblem with hbad | ⟨-, -, hproblem⟩
  · cases hblocks.symm.trans hbad
  rcases bind_eq_error_iff.mp hproblem with hbad | ⟨-, -, hproblem⟩
  · cases hpreds.symm.trans hbad
  obtain ⟨b, hb, hblock⟩ := exists_of_forM_eq_error hproblem
  obtain ⟨v, hv, hvalue⟩ := exists_of_forM_eq_error hblock
  obtain ⟨place, hget⟩ := mem_iff_getElem?.mp hv
  obtain ⟨inst, hinst⟩ := h.homed.exists_inst hb hv
  rcases bind_eq_error_iff.mp hvalue with hoperands | ⟨-, -, htypes⟩
  · obtain ⟨w, rfl⟩ := hsurvey.checkOperands_eq_error hb (h.shaped b hb) hget hinst
      (h.operands b hb place v inst hget hinst) hoperands
    rfl
  · exact checkTypes_eq_error htypes

lemma Sound.verify_eq_ok (htyped : WellTyped f types) :
    f.verify types = .ok (.ok ()) := by
  obtain ⟨positions, doms, hpositions, hcompute, hsurvey⟩ := h.surveyed hlisted hlayout
  have hnodup := layout_nodup_of_placedValues h.placed_once fun b hb =>
    insts_ne_nil_of_shaped (h.shaped b hb)
  have hbody : f.checkBody types positions doms = .ok () := by
    refine checkBody_eq_ok_iff.mpr ⟨entry, h.entry_eq, h.entry_preds, fun b hb => ?_,
      fun b hb => (checkPreds_eq_ok_iff hnodup).mpr (h.preds_right b hb), fun b hb v hv => ?_⟩
    · exact ⟨(isReachable_iff_of_compute h.entry_eq hcompute b).mpr (h.reached b hb),
        checkShape_eq_ok_iff.mpr (h.shaped b hb)⟩
    · obtain ⟨place, hget⟩ := mem_iff_getElem?.mp hv
      obtain ⟨inst, hinst⟩ := h.homed.exists_inst hb hv
      obtain ⟨hvoid, hrule⟩ := htyped b hb v hv inst hinst
      exact ⟨(hsurvey.checkOperands_eq_ok_iff hb (h.shaped b hb) hget hinst).mpr
        ⟨hvoid, h.operands b hb place v inst hget hinst⟩, (checkTypes_eq_ok_iff hinst).mpr hrule⟩
  rw [Function.verify, hpositions]
  exact bind_eq_ok_iff.mpr ⟨doms, hcompute, congrArg Except.ok hbody⟩

end

/-- What was computed and checked where a function is accepted. -/
lemma checked_of_verify (h : f.verify types = .ok (.ok ())) :
    ∃ positions doms, f.positions = .ok positions ∧
      Dominators.compute f = .ok doms ∧
      f.checkBody types positions doms = .ok () := by
  rw [Function.verify] at h
  cases hpositions : f.positions with
  | error malformation =>
    rw [hpositions] at h
    cases h
  | ok positions =>
    rw [hpositions] at h
    obtain ⟨doms, hcompute, hpure⟩ := bind_eq_ok_iff.mp h
    exact ⟨positions, doms, rfl, hcompute, Except.ok.inj hpure⟩

/-- An accepted function with a closed layout is sound and well typed. -/
lemma sound_of_verify (hlayout : ∀ b ∈ f.layout, b.id < f.blocks.size)
    (hclosed : ∀ b ∈ f.layout, ∀ t ∈ f.successors b, t ∈ f.layout)
    (h : f.verify types = .ok (.ok ())) :
    ∃ entry, Sound f entry ∧ WellTyped f types := by
  obtain ⟨positions, doms, hpositions, hcompute, hbody⟩ := checked_of_verify h
  obtain ⟨entry, hentry, hpreds, hblocks, hrecorded, hvalues⟩ := checkBody_eq_ok_iff.mp hbody
  have hplaced := positions_eq_ok_iff.mp ⟨positions, hpositions⟩
  have hreached : ∀ b ∈ f.layout, Reached f entry b := fun b hb =>
    (isReachable_iff_of_compute hentry hcompute b).mp (hblocks b hb).1
  have hshaped : ∀ b ∈ f.layout, Shaped f entry b := fun b hb =>
    checkShape_eq_ok_iff.mp (hblocks b hb).2
  have hnodup := layout_nodup_of_placedValues hplaced.1 fun b hb =>
    insts_ne_nil_of_shaped (hshaped b hb)
  have hright : ∀ b ∈ f.layout, PredsRight f b := fun b hb =>
    (checkPreds_eq_ok_iff hnodup).mp (hrecorded b hb)
  have hlisted : ∀ b, Reached f entry b → b ∈ f.layout := fun b =>
    reached_mem_layout hentry hclosed
  -- the dominators that were computed are right after all
  obtain ⟨_, hcompute', hdominators⟩ := compute_dominatorsOf hentry
    (fun b hb => hlayout b (hlisted b hb)) (predsAgree_of_predsRight hlisted hright)
  obtain rfl := Except.ok.inj (hcompute.symm.trans hcompute')
  have hsurvey : Surveyed f entry positions doms :=
    ⟨positionsOf_of_eq_ok hpositions, fun b => ⟨hlisted b, hreached b⟩, hright, hdominators⟩
  have hoperands {b : Block} (hb : b ∈ f.layout) {place : Nat} {v : Value} {inst : Inst}
      (hv : (f.insts b)[place]? = some v) (hinst : f.inst? v = some inst) :=
    (hsurvey.checkOperands_eq_ok_iff hb (hshaped b hb) hv hinst).mp
      (hvalues b hb v (List.mem_of_getElem? hv)).1
  refine ⟨entry, ⟨hentry, hpreds, hplaced.1, hplaced.2, hreached, hshaped, hright,
    fun b hb place v inst hv hinst => (hoperands hb hv hinst).2⟩, fun b hb v hv inst hinst => ?_⟩
  obtain ⟨place, hget⟩ := mem_iff_getElem?.mp hv
  exact ⟨(hoperands hb hget hinst).1, (checkTypes_eq_ok_iff hinst).mp (hvalues b hb v hv).2⟩

variable {function : Function}

/-- The verifier accepts exactly the functions in sound SSA form that keep the type rules. -/
theorem verify_eq_ok_iff (hrange : InRange function)
    (hclosed : ∀ b ∈ function.layout, ∀ t ∈ function.successors b, t ∈ function.layout)
    (types : LayoutTable) :
    function.verify types = .ok (.ok ()) ↔
      ∃ entry, Sound function entry ∧ WellTyped function types := by
  refine ⟨sound_of_verify hrange.layout hclosed, ?_⟩
  rintro ⟨entry, hsound, htyped⟩
  exact hsound.verify_eq_ok (fun b => reached_mem_layout hsound.entry_eq hclosed) hrange.layout htyped

/-- The type of the aggregate that an instruction makes or has a part of. -/
def aggregateOf (f : Function) : Inst → Option Ty
  | .new agg | .makeAgg agg _ | .fieldPtr agg _ _ => some (.agg agg)
  | .extractField _ aggregate _ => some (f.ty aggregate)
  | _ => none

/-- An aggregate type is in the table. -/
def KnownIn (types : LayoutTable) (ty : Ty) : Prop :=
  ∃ agg layout, ty = .agg agg ∧ types.get? agg = some layout

/-- Wherever an accepted function works on an aggregate, the aggregate is in the table, except that
the aggregate of a field pointer is not looked up. -/
theorem verified_aggregates_are_known {types : LayoutTable}
    (h : function.verify types = .ok (.ok ())) {b : Block} (hb : b ∈ function.layout) {v : Value}
    (hv : v ∈ function.insts b) {inst : Inst} (hinst : function.inst? v = some inst)
    (hother : ∀ agg base position, inst ≠ .fieldPtr agg base position) {ty : Ty}
    (hty : aggregateOf function inst = some ty) : KnownIn types ty := by
  obtain ⟨_, _, -, -, hbody⟩ := checked_of_verify h
  obtain ⟨_, -, -, -, -, hvalues⟩ := checkBody_eq_ok_iff.mp hbody
  have hrule := (checkTypes_eq_ok_iff hinst).mp (hvalues b hb v hv).2
  cases inst with
  | new agg =>
    cases hty
    obtain ⟨layout, hget⟩ := hrule
    exact ⟨agg, layout, rfl, hget⟩
  | makeAgg agg fields =>
    cases hty
    obtain ⟨layout, hget, -⟩ := hrule
    exact ⟨agg, layout, rfl, hget⟩
  | extractField part aggregate position =>
    cases hty
    obtain ⟨-, agg, layout, heq, hget, -⟩ := hrule
    exact ⟨agg, layout, heq, hget⟩
  | fieldPtr agg base position => exact absurd rfl (hother agg base position)
  | _ => cases hty

end

/-- A function that chooses between two constants. -/
def diamond : Function where
  name := "diamond"
  ret := .i64
  span := .zero
  node := 0
  params := [⟨0⟩]
  values := #[⟨.param .i1 0, some ⟨0⟩, .zero, 0⟩, ⟨.condBr ⟨0⟩ ⟨1⟩ ⟨2⟩, some ⟨0⟩, .zero, 0⟩,
    ⟨.iconst 1, some ⟨1⟩, .zero, 0⟩, ⟨.br ⟨3⟩, some ⟨1⟩, .zero, 0⟩,
    ⟨.iconst 2, some ⟨2⟩, .zero, 0⟩, ⟨.br ⟨3⟩, some ⟨2⟩, .zero, 0⟩,
    ⟨.phi .i64 [⟨2⟩, ⟨4⟩], some ⟨3⟩, .zero, 0⟩, ⟨.ret (some ⟨6⟩), some ⟨3⟩, .zero, 0⟩]
  blocks := #[⟨"entry", [], [⟨0⟩, ⟨1⟩]⟩, ⟨"then", [⟨0⟩], [⟨2⟩, ⟨3⟩]⟩, ⟨"else", [⟨0⟩], [⟨4⟩, ⟨5⟩]⟩,
    ⟨"merge", [⟨1⟩, ⟨2⟩], [⟨6⟩, ⟨7⟩]⟩]
  layout := [⟨0⟩, ⟨1⟩, ⟨2⟩, ⟨3⟩]

lemma diamond_inRange : InRange diamond :=
  ⟨by decide, by decide, by decide, by decide, by decide, by decide, by decide, by decide⟩

lemma diamond_closed : ∀ b ∈ diamond.layout, ∀ t ∈ diamond.successors b, t ∈ diamond.layout := by
  decide

/-- The diamond is accepted, so that it is sound and well typed. -/
theorem diamond_sound : InRange diamond ∧
    (∀ b ∈ diamond.layout, ∀ t ∈ diamond.successors b, t ∈ diamond.layout) ∧
    diamond.verify .empty = .ok (.ok ()) ∧
    ∃ entry, Sound diamond entry ∧ WellTyped diamond .empty :=
  ⟨diamond_inRange, diamond_closed, by cbv,
    (verify_eq_ok_iff diamond_inRange diamond_closed .empty).mp (by cbv)⟩

/-- A function that makes a pair and returns the first part of it. -/
def firstOfPair : Function where
  name := "first"
  ret := .i64
  span := .zero
  node := 0
  values := #[⟨.iconst 1, some ⟨0⟩, .zero, 0⟩, ⟨.makeAgg 0 [⟨0⟩, ⟨0⟩], some ⟨0⟩, .zero, 0⟩,
    ⟨.extractField .i64 ⟨1⟩ 0, some ⟨0⟩, .zero, 0⟩, ⟨.ret (some ⟨2⟩), some ⟨0⟩, .zero, 0⟩]
  blocks := #[⟨"entry", [], [⟨0⟩, ⟨1⟩, ⟨2⟩, ⟨3⟩]⟩]
  layout := [⟨0⟩]

def pairTypes : LayoutTable :=
  .ofList [.data "Pair" [.i64, .i64]]

theorem firstOfPair_aggregate_is_known : firstOfPair.verify pairTypes = .ok (.ok ()) ∧
    ⟨0⟩ ∈ firstOfPair.layout ∧ ⟨2⟩ ∈ firstOfPair.insts ⟨0⟩ ∧
    firstOfPair.inst? ⟨2⟩ = some (.extractField .i64 ⟨1⟩ 0) ∧
    aggregateOf firstOfPair (.extractField .i64 ⟨1⟩ 0) = some (.agg 0) ∧
    KnownIn pairTypes (.agg 0) := by
  have hverify : firstOfPair.verify pairTypes = .ok (.ok ()) := by cbv
  have hb : ⟨0⟩ ∈ firstOfPair.layout := by decide
  have hv : ⟨2⟩ ∈ firstOfPair.insts ⟨0⟩ := by decide
  have hinst : firstOfPair.inst? ⟨2⟩ = some (.extractField .i64 ⟨1⟩ 0) := rfl
  exact ⟨hverify, hb, hv, hinst, rfl,
    verified_aggregates_are_known hverify hb hv hinst (by simp) rfl⟩

/-- A function that points into an aggregate which no table needs to have. -/
def strayField : Function where
  name := "stray"
  ret := .void
  span := .zero
  node := 0
  params := [⟨0⟩]
  values := #[⟨.param .ptr 0, some ⟨0⟩, .zero, 0⟩, ⟨.fieldPtr 7 ⟨0⟩ 0, some ⟨0⟩, .zero, 0⟩,
    ⟨.ret none, some ⟨0⟩, .zero, 0⟩]
  blocks := #[⟨"entry", [], [⟨0⟩, ⟨1⟩, ⟨2⟩]⟩]
  layout := [⟨0⟩]

/-- It is accepted with an empty table. -/
theorem strayField_is_accepted : strayField.verify .empty = .ok (.ok ()) ∧
    ⟨0⟩ ∈ strayField.layout ∧ ⟨1⟩ ∈ strayField.insts ⟨0⟩ ∧
    strayField.inst? ⟨1⟩ = some (.fieldPtr 7 ⟨0⟩ 0) ∧
    aggregateOf strayField (.fieldPtr 7 ⟨0⟩ 0) = some (.agg 7) ∧ ¬KnownIn .empty (.agg 7) := by
  refine ⟨by cbv, by decide, by decide, rfl, rfl, ?_⟩
  rintro ⟨agg, layout, -, hget⟩
  simp [LayoutTable.get?, LayoutTable.empty] at hget

end SsaLowering.Proofs
