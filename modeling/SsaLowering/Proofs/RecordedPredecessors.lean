import SsaLowering.Proofs.ModuleRoundTrip
import SsaLowering.Proofs.Verification

/-!
# Verification where predecessors are only recorded

The verifier computes dominators from the recorded predecessors before it compares them with the
edges, so they may be anything. Whatever they are, the computation asks only for blocks that exist,
and if it has a result then every block that control can get to is connected with the entry by
recorded predecessors. It has one where every such block records a predecessor that the depth-first
order puts before it.

Two things follow. A module that was read can be verified unless a block that control can get to
records no predecessor before it. And a function that was accepted is closed under control flow
unless a block outside of its layout records a predecessor in it: such a block is never checked.
-/

namespace SsaLowering.Proofs

open Ir List

variable {b : Block} {ps : List Nat} {order : List Block} {i : Nat}

/-- A computation gives a result with a property, or finds a block without a dominator. -/
def OrUndominated {α : Type} (Q : α → Prop) : Except Fault α → Prop
  | .ok a => Q a
  | .error fault => fault = .undominated

namespace OrUndominated

variable {α β : Type} {Q : α → Prop}

lemma bind {R : β → Prop} {x : Except Fault α} {f : α → Except Fault β} (h : OrUndominated Q x)
    (hf : ∀ a, Q a → OrUndominated R (f a)) : OrUndominated R (x >>= f) := by
  cases x with
  | ok a => exact hf a h
  | error fault => exact h

lemma foldlM {step : β → α → Except Fault β} {P : β → Prop} {items : List α}
    (hstep : ∀ a ∈ items, ∀ b, P b → OrUndominated P (step b a)) {b : β} (hb : P b) :
    OrUndominated P (items.foldlM step b) := by
  induction items generalizing b with
  | nil => exact hb
  | cons a items ih =>
    refine (hstep a mem_cons_self b hb).bind fun next hnext => ?_
    exact ih (fun c hc => hstep c (mem_cons_of_mem _ hc)) hnext

lemma mapM {f : α → Except Fault β} {items : List α} (h : ∀ a ∈ items, OrUndominated (fun _ => Q a) (f a)) :
    OrUndominated (fun _ => ∀ a ∈ items, Q a) (items.mapM f) := by
  induction items with
  | nil =>
    intro a ha
    cases ha
  | cons a items ih =>
    rw [mapM_cons]
    refine (h a mem_cons_self).bind fun first hfirst => ?_
    refine (ih fun c hc => h c (mem_cons_of_mem _ hc)).bind fun rest hrest => ?_
    exact forall_mem_cons.mpr ⟨hfirst, hrest⟩

end OrUndominated

/-! ### Places -/

section Places

variable {preds : List (List Nat)} {found : Array (Option Nat)}

/-- However the predecessors are recorded: parents that are found have parents, a place gets one from
a predecessor that has one, and so what has one is connected with the first place. -/
structure Anchored (preds : List (List Nat)) (found : Array (Option Nat)) : Prop where
  size_eq : found.size = preds.length
  settled : ∀ i j : Nat, found[i]? = some (some j) → Settled found j
  supported : ∀ i : Nat, 0 < i → Settled found i → ∃ p, PlaceEdge preds p i ∧ Settled found p
  connected : ∀ i : Nat, Settled found i → Reachable (PlaceEdge preds) 0 i

lemma Anchored.intersect (h : Anchored preds found) (fuel a b : Nat) (ha : Settled found a)
    (hb : Settled found b) : OrUndominated (Settled found) (Dominators.intersect found fuel a b) := by
  induction fuel generalizing a b with
  | zero => rfl
  | succ fuel ih =>
    unfold Dominators.intersect
    split
    · exact ha
    · split
      · obtain ⟨next, hnext⟩ := ha
        rw [hnext]
        exact ih next b (h.settled a next hnext) hb
      · obtain ⟨next, hnext⟩ := hb
        rw [hnext]
        exact ih a next ha (h.settled b next hnext)

/-- What has been joined so far, if anything could be. -/
def Backed (found : Array (Option Nat)) (ps : List Nat) : Option Nat → Prop
  | none => ∀ p ∈ ps, ¬ Settled found p
  | some c => Settled found c ∧ ∃ p ∈ ps, Settled found p

lemma Anchored.joinPlace (h : Anchored preds found) (fuel : Nat) {best : Option Nat}
    (hbest : Backed found ps best) (p : Nat) :
    OrUndominated (Backed found (ps ++ [p])) (joinPlace found fuel best p) := by
  by_cases hp : Settled found p
  · obtain ⟨j, hj⟩ := hp
    have hlast : ∃ q ∈ ps ++ [p], Settled found q := ⟨p, by simp, j, hj⟩
    unfold Proofs.joinPlace
    rw [hj]
    cases best with
    | none => exact ⟨⟨j, hj⟩, hlast⟩
    | some other =>
      have hmeet := h.intersect fuel p other ⟨j, hj⟩ hbest.1
      dsimp only
      cases hc : Dominators.intersect found fuel p other with
      | ok c =>
        rw [hc] at hmeet
        exact ⟨hmeet, hlast⟩
      | error fault =>
        rw [hc] at hmeet
        exact hmeet
  · have hsame : Proofs.joinPlace found fuel best p = .ok best := by
      unfold Proofs.joinPlace
      split
      · exact absurd ⟨_, ‹_›⟩ hp
      · rfl
    rw [hsame]
    cases best with
    | none => exact forall_mem_append.mpr ⟨hbest, by simpa using hp⟩
    | some c =>
      obtain ⟨hc, q, hq, hset⟩ := hbest
      exact ⟨hc, q, mem_append_left _ hq, hset⟩

lemma Anchored.candidate (h : Anchored preds found) (fuel : Nat) (ps : List Nat) :
    OrUndominated (Backed found ps) (Dominators.candidate found fuel ps) := by
  have hfold : ∀ rest seen best, Backed found seen best →
      OrUndominated (Backed found (seen ++ rest)) (rest.foldlM (Proofs.joinPlace found fuel) best) := by
    intro rest
    induction rest with
    | nil =>
      intro seen best hbest
      rw [append_nil]
      exact hbest
    | cons p rest ih =>
      intro seen best hbest
      rw [foldlM_cons, append_cons]
      exact (h.joinPlace fuel hbest p).bind fun next hnext => ih (seen ++ [p]) next hnext
  exact hfold ps [] none (by simp [Backed])

/-- A place takes over what its settled predecessors meet in. -/
lemma Anchored.set (h : Anchored preds found) {k c : Nat} (hps : preds[k]? = some ps)
    (hc : Backed found ps (some c)) : Anchored preds (found.setIfInBounds k (some c)) := by
  obtain ⟨hset, p, hp, hpset⟩ := hc
  have hold {i : Nat} (hi : Settled (found.setIfInBounds k (some c)) i) (hne : i ≠ k) :
      Settled found i := by
    obtain ⟨j, hj⟩ := hi
    rcases getElem?_set_cases hj with ⟨rfl, -⟩ | ⟨-, hj⟩
    · exact absurd rfl hne
    · exact ⟨j, hj⟩
  refine ⟨by simp [h.size_eq], fun i j hij => ?_, fun i hpos hi => ?_, fun i hi => ?_⟩
  · rcases getElem?_set_cases hij with ⟨rfl, rfl⟩ | ⟨-, hij⟩
    · exact hset.set
    · exact (h.settled i j hij).set
  · by_cases hik : i = k
    · subst hik
      exact ⟨p, ⟨ps, hps, hp⟩, hpset.set⟩
    · obtain ⟨q, hq, hqset⟩ := h.supported i hpos (hold hi hik)
      exact ⟨q, hq, hqset.set⟩
  · by_cases hik : i = k
    · subst hik
      exact (h.connected p hpset).step ⟨ps, hps, hp⟩
    · exact h.connected i (hold hi hik)

lemma Anchored.improvePlace (h : Anchored preds found) {k fuel : Nat} (changed : Bool)
    (hpos : 0 < k) (hps : preds[k]? = some ps) :
    OrUndominated (fun state => Anchored preds state.1)
      (improvePlace fuel (found, changed) (ps, k)) := by
  refine (h.candidate fuel ps).bind fun best hbest => ?_
  split
  · exact h
  · next hne =>
    cases best with
    | some c => exact h.set hps hbest
    | none =>
      -- nothing is lost: a place that has a parent has a predecessor that has one
      refine absurd ?_ hne
      have hk : k < found.size := h.size_eq ▸ (List.getElem?_eq_some_iff.mp hps).1
      cases hget : found[k] with
      | none => rw [Array.getElem?_eq_getElem hk, hget]
      | some j =>
        have hset : Settled found k := ⟨j, by rw [Array.getElem?_eq_getElem hk, hget]⟩
        obtain ⟨p, ⟨ps', hps', hp⟩, hpset⟩ := h.supported k hpos hset
        obtain rfl : ps = ps' := by simpa [hps] using hps'
        exact absurd hpset (hbest p hp)

lemma Anchored.stabilize (h : Anchored preds found) (chain fuel : Nat) :
    OrUndominated (Anchored preds) (Dominators.stabilize preds chain fuel found) := by
  induction fuel generalizing found with
  | zero => rfl
  | succ fuel ih =>
    have hpass : OrUndominated (fun state => Anchored preds state.1)
        (Dominators.improve preds chain found) := by
      refine OrUndominated.foldlM (P := fun state : _ × Bool => Anchored preds state.1) ?_ h
      rintro ⟨ps, k⟩ hmem ⟨found, changed⟩ hstate
      obtain ⟨i, hi, hget⟩ := List.mem_iff_getElem.mp hmem
      simp only [length_drop, length_zipIdx] at hi
      simp only [getElem_drop, getElem_zipIdx, Nat.zero_add, Prod.mk.injEq] at hget
      obtain ⟨rfl, rfl⟩ := hget
      exact hstate.improvePlace changed (by omega) (List.getElem?_eq_getElem (by omega))
    unfold Dominators.stabilize
    refine hpass.bind fun state hstate => ?_
    dsimp only
    split
    · exact ih hstate
    · exact hstate

lemma Anchored.start : Anchored preds ((Array.replicate preds.length none).setIfInBounds 0 (some 0)) := by
  refine ⟨by simp, fun i j hij => ?_, fun i hpos hi => ?_, fun i hi => ?_⟩
  · obtain ⟨rfl, rfl⟩ := getElem?_start hij
    exact ⟨0, hij⟩
  · obtain ⟨j, hj⟩ := hi
    have := (getElem?_start hj).1
    omega
  · obtain ⟨j, hj⟩ := hi
    rw [(getElem?_start hj).1]
    exact .at_entry

end Places

/-! ### Blocks -/

section Blocks

variable {f : Function} {entry : Block}

/-- An edge as a block records it, which may not be there. -/
def Recorded (f : Function) (source target : Block) : Prop :=
  source ∈ f.preds target

lemma InRange.blocksExist (h : InRange f) (hentry : f.entry? = some entry) :
    BlocksExist f entry := by
  intro b hb
  refine hb.induction (motive := fun b => b.id < f.blocks.size) ?_ fun p c _ hedge _ => ?_
  · rw [Function.entry?] at hentry
    exact h.layout entry (mem_of_head? hentry)
  · rw [Edge, Function.successors] at hedge
    cases hlast : f.terminator? p with
    | none => simp [hlast] at hedge
    | some last =>
      cases hinfo : f.value? last with
      | none => simp [hlast, Function.inst?, hinfo] at hedge
      | some info =>
        simp only [hlast, Function.inst?, hinfo, Option.bind_some, Option.map_some,
          Option.getD_some] at hedge
        exact h.successors info (mem_values_iff.mpr ⟨last, hinfo⟩) c hedge

lemma recorded_of_placeEdge (ho : OrderOf f entry order) {j : Nat}
    (h : PlaceEdge (placePreds f order) i j) :
    ∃ p b, order[i]? = some p ∧ order[j]? = some b ∧ Recorded f p b := by
  obtain ⟨ps, hps, hmem⟩ := h
  simp only [placePreds, getElem?_map, Option.map_eq_some_iff] at hps
  obtain ⟨b, hb, rfl⟩ := hps
  obtain ⟨p, hpb, hrank⟩ := mem_filterMap.mp hmem
  exact ⟨p, b, (ranks_get_iff ho.nodup p i).mp hrank, hb, hpb⟩

lemma placeEdge_of_recorded (ho : OrderOf f entry order) {j : Nat} {p : Block}
    (hp : order[i]? = some p) (hb : order[j]? = some b) (h : Recorded f p b) :
    PlaceEdge (placePreds f order) i j := by
  refine ⟨_, by simp only [placePreds, getElem?_map, hb, Option.map_some]; rfl, ?_⟩
  exact mem_filterMap.mpr ⟨p, h, (ranks_get_iff ho.nodup p i).mpr hp⟩

lemma recorded_of_reachable_place (ho : OrderOf f entry order)
    (h : Reachable (PlaceEdge (placePreds f order)) 0 i) (hb : order[i]? = some b) :
    Reachable (Recorded f) entry b := by
  refine h.induction (motive := fun i => ∀ b, order[i]? = some b → Reachable (Recorded f) entry b)
    (fun b hb => ?_) (fun j i _ hedge ih b hb => ?_) b hb
  · rw [ho.getElem?_zero] at hb
    cases hb
    exact .at_entry
  · obtain ⟨p, b', hp, hb', hrecorded⟩ := recorded_of_placeEdge ho hedge
    obtain rfl : b = b' := Option.some.inj (hb.symm.trans hb')
    exact (ih p hp).step hrecorded

/-- All that can go wrong with the computation of dominators is that a block has none. If nothing
does, then recorded predecessors connect every block that control can get to with the entry. -/
lemma compute_orUndominated (hentry : f.entry? = some entry)
    (hblocks : BlocksExist f entry) :
    OrUndominated (fun _ => ∀ b, Reached f entry b → Reachable (Recorded f) entry b)
      (Dominators.compute f) := by
  have ho := reversePostorder_orderOf hentry
  have hholds : ((Dominators.reversePostorder f).all fun block =>
      f.blocks.holds block.id) = true := by
    rw [all_eq_true]
    intro b hb
    simpa [Arena.holds] using hblocks b ((ho.mem_iff b).mp hb)
  have hlen : (placePreds f (Dominators.reversePostorder f)).length =
      (Dominators.reversePostorder f).length := by simp [placePreds]
  unfold Dominators.compute
  dsimp only
  rw [if_pos hholds, ← hlen]
  refine (Anchored.start.stabilize _ _).bind fun found hfound => ?_
  have hparents : OrUndominated
      (fun _ => ∀ x ∈ (Dominators.reversePostorder f).zipIdx.drop 1, Settled found x.2)
      (Dominators.immediate (Dominators.reversePostorder f) found) := by
    refine OrUndominated.mapM (Q := fun x : Block × Nat => Settled found x.2) fun x _ => ?_
    dsimp only
    split
    · next parent hparent =>
      obtain ⟨j, hj, -⟩ := Option.bind_eq_some_iff.mp hparent
      exact ⟨j, Option.join_eq_some_iff.mp hj⟩
    · rfl
  refine hparents.bind fun parents hall b hb => ?_
  obtain ⟨i, hi⟩ := mem_iff_getElem?.mp ((ho.mem_iff b).mpr hb)
  rcases Nat.eq_zero_or_pos i with rfl | hpos
  · rw [ho.getElem?_zero] at hi
    cases hi
    exact .at_entry
  · refine recorded_of_reachable_place ho (hfound.connected i (hall (b, i) ?_)) hi
    obtain ⟨hlt, rfl⟩ := List.getElem?_eq_some_iff.mp hi
    obtain ⟨k, rfl⟩ := Nat.exists_eq_add_of_lt hpos
    exact List.mem_iff_getElem.mpr ⟨k, by simp; omega, by simp [Nat.add_comm]⟩

/-- Every block that control can get to, the entry apart, records a predecessor that the depth-first
order puts before it. -/
def RecordsParents (f : Function) : Prop :=
  ∀ i < (Dominators.reversePostorder f).length, 0 < i →
    ∃ p ∈ (Dominators.reversePostorder f).take i,
      ∀ b ∈ (Dominators.reversePostorder f)[i]?, p ∈ f.preds b

instance (f : Function) : Decidable (RecordsParents f) := by
  unfold RecordsParents
  infer_instance

lemma RecordsParents.ranked (h : RecordsParents f) (hentry : f.entry? = some entry) :
    Ranked (placePreds f (Dominators.reversePostorder f)) := by
  have ho := reversePostorder_orderOf hentry
  set order := Dominators.reversePostorder f with horder
  have hlen : (placePreds f order).length = order.length := by simp [placePreds]
  refine ⟨?_, fun p i hedge => ?_, fun i hpos hi => ?_⟩
  · rw [hlen]
    exact (List.getElem?_eq_some_iff.mp ho.getElem?_zero).1
  · obtain ⟨x, b, hx, -, -⟩ := recorded_of_placeEdge ho hedge
    rw [hlen]
    exact (List.getElem?_eq_some_iff.mp hx).1
  · rw [hlen] at hi
    obtain ⟨p, hpmem, hrecorded⟩ := h i hi hpos
    obtain ⟨k, hk, hget⟩ := List.mem_take_iff_getElem.mp hpmem
    have hb : order[i]? = some order[i] := List.getElem?_eq_getElem hi
    refine ⟨k, by omega, placeEdge_of_recorded ho (p := p) ?_ hb (hrecorded _ hb)⟩
    rw [List.getElem?_eq_getElem (by omega), hget]

lemma RecordsParents.compute (h : RecordsParents f) (hentry : f.entry? = some entry)
    (hblocks : BlocksExist f entry) :
    ∃ doms, Dominators.compute f = .ok doms := by
  have ho := reversePostorder_orderOf hentry
  have hr := h.ranked hentry
  obtain ⟨found, hfound, hparents⟩ := stabilize_parentsOf hr
  set order := Dominators.reversePostorder f with horder
  have hlen : (placePreds f order).length = order.length := by simp [placePreds]
  have hholds : (order.all fun block => f.blocks.holds block.id) = true := by
    rw [all_eq_true]
    intro b hb
    simpa [Arena.holds] using hblocks b ((ho.mem_iff b).mp hb)
  have himmediate : ∃ parents, Dominators.immediate order found = .ok parents := by
    refine ⟨_, mapM_ok (fun x => (x.1, ((found[x.2]?).join.bind (order[·]?)).getD entry)) _
      fun x hx => ?_⟩
    obtain ⟨k, hk, hget⟩ := List.mem_iff_getElem.mp hx
    simp only [length_drop, length_zipIdx] at hk
    obtain ⟨j, hj, hidom⟩ := hparents.parent (1 + k) (by omega) (by omega)
    have hle := hr.le_of_dominates (by omega) hidom.1.1
    have hparent : (found[x.2]?).join.bind (order[·]?) = some order[j] := by
      rw [← hget]
      simp [hj, List.getElem?_eq_getElem (show j < order.length by omega)]
    simp [hparent]
  obtain ⟨parents, himmediate⟩ := himmediate
  unfold Dominators.compute
  rw [← horder, if_pos hholds, ← hlen]
  exact ⟨_, bind_eq_ok_iff.mpr ⟨found, hfound, bind_eq_ok_iff.mpr ⟨parents, himmediate, rfl⟩⟩⟩

/-- Verification has a verdict wherever the computation of dominators has a result. -/
lemma verify_orUndominated (hrange : InRange f) (hbody : f.isDeclaration = false)
    (types : LayoutTable) :
    OrUndominated (fun _ => True) (f.verify types) ∧
      (RecordsParents f → ∃ verdict, f.verify types = .ok verdict) := by
  obtain ⟨entry, hentry⟩ : ∃ entry, f.entry? = some entry := by
    rw [Function.isDeclaration] at hbody
    rw [Function.entry?]
    exact Option.isSome_iff_exists.mp (by simpa using hbody)
  have hblocks := hrange.blocksExist hentry
  rw [Function.verify]
  cases f.positions with
  | error malformation => exact ⟨trivial, fun _ => ⟨_, rfl⟩⟩
  | ok positions =>
    refine ⟨(compute_orUndominated hentry hblocks).bind fun _ _ => trivial, fun hparents => ?_⟩
    obtain ⟨doms, hcompute⟩ := hparents.compute hentry hblocks
    exact ⟨_, bind_eq_ok_iff.mpr ⟨doms, hcompute, rfl⟩⟩

lemma verifyAll_orUndominated (types : LayoutTable) (functions : List Function)
    (hrange : ∀ f ∈ functions, InRange f) :
    OrUndominated (fun _ => True) (verifyAll types functions) ∧
      ((∀ f ∈ functions, f.isDeclaration = false → RecordsParents f) →
        ∃ verdict, verifyAll types functions = .ok verdict) := by
  induction functions with
  | nil => exact ⟨trivial, fun _ => ⟨_, rfl⟩⟩
  | cons f functions ih =>
    obtain ⟨ihfault, ihverdict⟩ := ih fun g hg => hrange g (mem_cons_of_mem _ hg)
    rw [verifyAll]
    split
    · exact ⟨ihfault, fun h => ihverdict fun g hg => h g (mem_cons_of_mem _ hg)⟩
    · next hbody =>
      have hbody : f.isDeclaration = false := by simpa using hbody
      obtain ⟨hfault, hverdict⟩ := verify_orUndominated (hrange f mem_cons_self) hbody types
      constructor
      · refine hfault.bind fun verdict _ => ?_
        cases verdict with
        | ok => exact ihfault
        | error malformation => trivial
      · intro h
        obtain ⟨verdict, hresult⟩ := hverdict (h f mem_cons_self hbody)
        obtain ⟨others, hothers⟩ := ihverdict fun g hg => h g (mem_cons_of_mem _ hg)
        rw [hresult]
        cases verdict with
        | ok => exact ⟨others, hothers⟩
        | error malformation => exact ⟨_, rfl⟩

end Blocks

/-- What a module that was read refers to is there, and verifying it asks for nothing else. It comes
to a verdict where every block that control can get to records a predecessor before it, whatever else
is recorded. -/
theorem decoded_modules_are_judged {bytes : List UInt8} {module : Ir.Module}
    (h : Module.decode bytes = .ok module) :
    (∀ f ∈ module.functions.toList, InRange f) ∧
    (∀ fault, module.verify = .error fault → fault = .undominated) ∧
    ((∀ f ∈ module.functions.toList, f.isDeclaration = false → RecordsParents f) →
      ∃ verdict, module.verify = .ok verdict) := by
  have hrange : ∀ f ∈ module.functions.toList, InRange f :=
    fun f hf => (decode_contained h f hf).inRange
  obtain ⟨hfault, hverdict⟩ := verifyAll_orUndominated module.types module.functions.toList hrange
  refine ⟨hrange, fun fault hverify => ?_, hverdict⟩
  rw [Module.verify] at hverify
  rw [hverify] at hfault
  exact hfault

/-- The diamond, with an edge into its last block that is recorded and not there. -/
def overcounted : Ir.Module :=
  { name := "overcounted"
    functions := #[{ diamond with
      blocks := diamond.blocks.modify 3 fun info => { info with preds := ⟨3⟩ :: info.preds } }] }

theorem overcounted_is_judged :
    ∃ module, Module.decode overcounted.encode = .ok module ∧
      (∀ f ∈ module.functions.toList, f.isDeclaration = false → RecordsParents f) ∧
      ∃ verdict, module.verify = .ok verdict := by
  have hread : Module.decode overcounted.encode = .ok (reinterned overcounted) := by
    refine decode_encode_reinterned (by decide) (fun f hf => ?_) (fun f hf => ?_)
    · obtain rfl := mem_singleton.mp hf
      exact inRange_of_dangling? (by decide)
    · obtain rfl := mem_singleton.mp hf
      exact List.Pairwise.nil
  have hparents : ∀ f ∈ (reinterned overcounted).functions.toList, f.isDeclaration = false →
      RecordsParents f := by
    intro f hf _
    obtain rfl := mem_singleton.mp hf
    decide
  exact ⟨_, hread, hparents, (decoded_modules_are_judged hread).2.2 hparents⟩

/-- A function with an edge that is not recorded at its target. -/
def unrecorded : Ir.Module :=
  { name := "unrecorded"
    functions := #[{
      name := "f", ret := .void, span := .zero, node := 0
      values := #[⟨.br ⟨1⟩, some ⟨0⟩, .zero, 0⟩, ⟨.ret none, some ⟨1⟩, .zero, 0⟩]
      blocks := #[⟨"entry", [], [⟨0⟩]⟩, ⟨"next", [], [⟨1⟩]⟩]
      layout := [⟨0⟩, ⟨1⟩] }] }

/-- There is no verdict on it, although it can be read. -/
theorem unrecorded_is_not_judged :
    ∃ module, Module.decode unrecorded.encode = .ok module ∧ module.verify = .error .undominated := by
  refine ⟨reinterned unrecorded, decode_encode_reinterned (by decide) (fun f hf => ?_)
    (fun f hf => ?_), by decide +kernel⟩
  · obtain rfl := mem_singleton.mp hf
    exact inRange_of_dangling? (by decide)
  · obtain rfl := mem_singleton.mp hf
    exact List.Pairwise.nil

/-! ### Closed layouts -/

section Closed

variable {f : Function} {entry : Block}

lemma closed_of_verify (hrange : InRange f) {types : LayoutTable}
    (hverify : f.verify types = .ok (.ok ()))
    (houtside : ∀ b, b ∉ f.layout → ∀ p ∈ f.preds b, p ∉ f.layout) :
    ∀ b ∈ f.layout, ∀ t ∈ f.successors b, t ∈ f.layout := by
  rw [Function.verify] at hverify
  cases hpositions : f.positions with
  | error malformation =>
    rw [hpositions] at hverify
    cases hverify
  | ok positions =>
    rw [hpositions] at hverify
    obtain ⟨doms, hcompute, hbody⟩ := bind_eq_ok_iff.mp hverify
    obtain ⟨entry, hentry, -, hblocks, -⟩ := checkBody_eq_ok_iff.mp (Except.ok.inj hbody)
    intro b hb t ht
    have hreached : Reached f entry t :=
      ((isReachable_iff_of_compute hentry hcompute b).mp (hblocks b hb).1).step ht
    have hconnected := compute_orUndominated hentry (hrange.blocksExist hentry)
    rw [hcompute] at hconnected
    refine (hconnected t hreached).induction ?_ fun p c _ hrecorded hp => ?_
    · rw [Function.entry?] at hentry
      exact mem_of_head? hentry
    · by_contra hc
      exact houtside c hc p hrecorded hp

/-- How the instructions of a block end from some point on, if a terminator is the last of them. -/
lemma Machine.runInsts_terminated {I : Interpretation} (M : Machine I) {before : List Value}
    {last : Value} {inst : Inst} (hbefore : ∀ v ∈ before, ∃ inst, M.function.inst? v = some inst ∧
      inst.isTerminator = false)
    (hlast : M.function.inst? last = some inst) (hend : inst.isTerminator = true)
    (state : RunState I) :
    (∃ outcome state', M.runInsts (before ++ [last]) state = .halt outcome state' ∧
      outcome ≠ .stuck) ∨
    ∃ target turn state', M.runInsts (before ++ [last]) state = .goto target turn state' ∧
      target ∈ inst.successors := by
  induction before generalizing state with
  | nil =>
    rw [nil_append, M.runInsts_cons_leave [] state hlast hend]
    cases hleave : Machine.leave state inst with
    | goto target turn state' =>
      exact .inr ⟨target, turn, state', rfl,
        count_pos_iff.mp (Nat.zero_lt_of_lt (Machine.leave_goto hleave).1)⟩
    | halt outcome state' =>
      refine .inl ⟨outcome, state', rfl, ?_⟩
      rintro rfl
      cases inst with
      | condBr c t e =>
        rw [Machine.leave] at hleave
        split at hleave <;> cases hleave
      | br | ret | «unreachable» => cases hleave
      | _ => cases hend
  | cons v before ih =>
    obtain ⟨inst', hinst, hgo⟩ := hbefore v mem_cons_self
    rw [cons_append, M.runInsts_cons_exec _ state hinst hgo]
    cases M.exec v inst' state with
    | ok next => exact ih (fun w hw => hbefore w (mem_cons_of_mem _ hw)) next
    | error final => exact .inl ⟨.trapped, final, rfl, by simp⟩

lemma afterPhis_eq_append {before : List Value} {last : Value}
    (hinsts : f.insts b = before ++ [last])
    (hlast : f.instIs Inst.isTerminator last = true) :
    ∃ rest, f.afterPhis b = rest ++ [last] ∧ rest ⊆ before := by
  have hphi : f.instIs Inst.isPhi last = false := by
    rw [Function.instIs] at hlast ⊢
    cases hinst : f.inst? last with
    | none => rfl
    | some inst =>
      rw [hinst] at hlast
      cases inst <;> first | rfl | cases hlast
  refine ⟨before.dropWhile (f.instIs Inst.isPhi), ?_, (dropWhile_sublist _).subset⟩
  have hafter : f.afterPhis b = (f.insts b).dropWhile (f.instIs Inst.isPhi) := by
    refine append_cancel_left ((f.phis_append_afterPhis b).trans ?_)
    exact takeWhile_append_dropWhile.symm
  rw [hafter, hinsts, dropWhile_append]
  split
  · next hempty => simp [isEmpty_iff.mp hempty, hphi]
  · rfl

/-- Where the layout is closed and every block in it ends in its terminator, no run gets stuck. -/
lemma Sound.run_not_stuck (h : Sound f entry)
    (hclosed : ∀ b ∈ f.layout, ∀ t ∈ f.successors b, t ∈ f.layout)
    {I : Interpretation} (M : Machine I) (hM : M.function = f) (memory : I.Memory)
    (fuel : Nat) (trace : List (Event I.Word)) (memory' : I.Memory) :
    M.run memory fuel ≠ .ended .stuck trace memory' := by
  have hblock {b : Block} (hb : b ∈ f.layout) {todo : List Value}
      (htodo : todo = f.insts b ∨ todo = f.afterPhis b) (state : RunState I) :
      (∃ outcome state', M.runInsts todo state = .halt outcome state' ∧ outcome ≠ .stuck) ∨
      ∃ target turn state', M.runInsts todo state = .goto target turn state' ∧
        target ∈ f.layout := by
    obtain ⟨before, last, hinsts, hlast, hbefore⟩ := (h.shaped b hb).terminator_last
    obtain ⟨inst, hinst⟩ := h.homed.exists_inst hb (v := last) (by simp [hinsts])
    have hend : inst.isTerminator = true := by simpa [Function.instIs, hinst] using hlast
    have hgo : ∀ v ∈ before, ∃ inst, M.function.inst? v = some inst ∧
        inst.isTerminator = false := by
      intro v hv
      obtain ⟨inst', hinst'⟩ := h.homed.exists_inst hb (v := v) (by simp [hinsts, hv])
      exact ⟨inst', hM ▸ hinst', by simpa [Function.instIs, hinst'] using hbefore v hv⟩
    have hsuccessors : f.successors b = inst.successors := by
      simp [Function.successors, Function.terminator?, hinsts, Option.filter, hlast, hinst]
    obtain ⟨rest, hrest, hsub⟩ : ∃ rest, todo = rest ++ [last] ∧ rest ⊆ before := by
      rcases htodo with rfl | rfl
      · exact ⟨before, hinsts, List.Subset.refl _⟩
      · exact afterPhis_eq_append hinsts hlast
    rw [hrest]
    refine (M.runInsts_terminated (fun v hv => hgo v (hsub hv)) (hM ▸ hinst) hend state).imp_right ?_
    rintro ⟨target, turn, state', hrun, htarget⟩
    exact ⟨target, turn, state', hrun, hclosed b hb target (hsuccessors ▸ htarget)⟩
  have hfrom : ∀ fuel b todo state, b ∈ f.layout →
      todo = f.insts b ∨ todo = f.afterPhis b →
      M.runFrom fuel b todo state ≠ .ended .stuck trace memory' := by
    intro fuel
    induction fuel with
    | zero =>
      intro b todo state hb htodo
      rcases hblock hb htodo state with ⟨outcome, state', hrun, hne⟩ | ⟨target, turn, state', hrun, -⟩
      · rw [M.runFrom_halt hrun]
        intro heq
        exact hne (by injection heq)
      · rw [M.runFrom_goto_zero hrun]
        intro heq
        cases heq
    | succ fuel ih =>
      intro b todo state hb htodo
      rcases hblock hb htodo state with ⟨outcome, state', hrun, hne⟩ |
        ⟨target, turn, state', hrun, htarget⟩
      · rw [M.runFrom_halt hrun]
        intro heq
        exact hne (by injection heq)
      · rw [M.runFrom_goto_succ hrun, hM]
        exact ih _ _ _ htarget (.inr rfl)
  rw [Machine.run, hM, h.entry_eq]
  exact hfrom fuel entry _ _ h.mem_entry (.inl rfl)

variable {function : Function}

/-- A function that is accepted is closed under control flow, unless a block outside of its layout
records a predecessor in it. Its layout then lists what control can get to, all of it was checked,
and no run gets stuck. -/
theorem verified_layout_is_closed (hrange : InRange function) {types : LayoutTable}
    (hverify : function.verify types = .ok (.ok ()))
    (houtside : ∀ b, b ∉ function.layout → ∀ p ∈ function.preds b, p ∉ function.layout) :
    (∀ b ∈ function.layout, ∀ t ∈ function.successors b, t ∈ function.layout) ∧
    (∃ entry, Sound function entry ∧ WellTyped function types ∧
      ∀ b, b ∈ function.layout ↔ Reached function entry b) ∧
    ∀ (I : Interpretation) (M : Machine I), M.function = function →
      ∀ memory fuel trace memory', M.run memory fuel ≠ .ended .stuck trace memory' := by
  have hclosed := closed_of_verify hrange hverify houtside
  obtain ⟨entry, hsound, htyped⟩ := sound_of_verify hrange.layout hclosed hverify
  refine ⟨hclosed, ⟨entry, hsound, htyped, fun b => ⟨hsound.reached b, ?_⟩⟩,
    fun I M hM => hsound.run_not_stuck hclosed M hM⟩
  exact reached_mem_layout hsound.entry_eq hclosed

end Closed

/-- The diamond, with a block beside its layout that only goes to itself. -/
def sideLoop : Function :=
  { diamond with
    values := diamond.values.push ⟨.br ⟨4⟩, some ⟨4⟩, .zero, 0⟩
    blocks := diamond.blocks.push ⟨"loop", [⟨4⟩], [⟨8⟩]⟩ }

theorem sideLoop_layout_is_closed :
    InRange sideLoop ∧ sideLoop.verify .empty = .ok (.ok ()) ∧
    (∀ b, b ∉ sideLoop.layout → ∀ p ∈ sideLoop.preds b, p ∉ sideLoop.layout) ∧
    (∀ b ∈ sideLoop.layout, ∀ t ∈ sideLoop.successors b, t ∈ sideLoop.layout) ∧
    (∃ entry, Sound sideLoop entry ∧ WellTyped sideLoop .empty ∧
      ∀ b, b ∈ sideLoop.layout ↔ Reached sideLoop entry b) ∧
    ∀ (I : Interpretation) (M : Machine I), M.function = sideLoop →
      ∀ memory fuel trace memory', M.run memory fuel ≠ .ended .stuck trace memory' := by
  have hrange : InRange sideLoop := inRange_of_dangling? (by decide)
  have hverify : sideLoop.verify .empty = .ok (.ok ()) := by cbv
  have houtside : ∀ b, b ∉ sideLoop.layout → ∀ p ∈ sideLoop.preds b, p ∉ sideLoop.layout := by
    intro b hb p hp
    have hlt : b.id < 5 := by
      by_contra hge
      have hnone : sideLoop.block? b = none := Array.getElem?_eq_none (Nat.not_lt.mp hge)
      simp [Function.preds, hnone] at hp
    have hsmall : ∀ i < 5, Block.mk i ∉ sideLoop.layout → ∀ p ∈ sideLoop.preds ⟨i⟩,
        p ∉ sideLoop.layout := by decide
    exact hsmall b.id hlt hb p hp
  exact ⟨hrange, hverify, houtside, verified_layout_is_closed hrange hverify houtside⟩

/-- A function whose only block goes to a block that is not in the layout and holds nothing. -/
def escaping : Function where
  name := "escaping"
  ret := .void
  span := .zero
  node := 0
  values := #[⟨.br ⟨1⟩, some ⟨0⟩, .zero, 0⟩]
  blocks := #[⟨"entry", [], [⟨0⟩]⟩, ⟨"outside", [⟨0⟩], []⟩]
  layout := [⟨0⟩]

/-- It is accepted, and every run leaves the layout and gets stuck. -/
theorem escaping_is_accepted :
    InRange escaping ∧ escaping.verify .empty = .ok (.ok ()) ∧
    ⟨0⟩ ∈ escaping.layout ∧ ⟨1⟩ ∈ escaping.successors ⟨0⟩ ∧ ⟨1⟩ ∉ escaping.layout ∧
    ∀ (I : Interpretation) (memory : I.Memory),
      Machine.run ⟨escaping, fun _ => false, []⟩ memory 1 = .ended .stuck [] memory := by
  refine ⟨inRange_of_dangling? (by decide), by cbv, by decide, by decide, by decide, ?_⟩
  intro I memory
  rfl

end SsaLowering.Proofs
