import SsaLowering.Proofs.SsaConstruction
import SsaLowering.Proofs.FinishedCode

/-!
# The form of the promoted function

Promotion keeps a function well formed: the edges stay, what stands for an operand is computed
before it is used, and it is not among the slots and accesses that promotion drops.
-/

namespace SsaLowering.Proofs

open Ir Ssa List

variable {b : Block} {v w : Value} {ty : Ty} {args before after : List Value}

variable {p g : Function} {entry : Block} {doms : Dominators} {slots : List Slot}
  {homes : List (Slot × Block)} {placed : Placed} {walk : Renaming} {held : Block → Held}

lemma Orderly.mem_phis {f : Function} (hf : Orderly f entry)
    (hb : Reached f entry b) (hv : v ∈ f.insts b)
    (hphi : f.instIs Inst.isPhi v = true) : v ∈ f.phis b := by
  rw [← f.phis_append_afterPhis b, mem_append] at hv
  refine hv.resolve_right fun hafter => ?_
  rw [hf.phis_first b hb v hafter] at hphi
  cases hphi

lemma Orderly.phi_length {f : Function} (hf : Orderly f entry)
    (hb : Reached f entry b) (hv : v ∈ f.insts b)
    (hinst : f.inst? v = some (.phi ty args)) : args.length = (f.preds b).length :=
  hf.phi_arity b hb v (hf.mem_phis hb hv (by rw [Function.instIs, hinst]; rfl)) ty args hinst

/-! ### What slots hold -/

/-- A property of the values that slots hold: inserted phis and undefined values have it, and so do
values that are stored, given that values loaded before have it. -/
structure Flows (p : Function) (entry : Block) (slots : List Slot) (homes : List (Slot × Block))
    (walk : Renaming) (T : Slot → Value → Prop) : Prop where
  phi : ∀ (i : Nat) (s : Slot) (b : Block), homes[i]? = some (s, b) → T s ⟨p.values.size + i⟩
  undef : ∀ s ∈ slots, ∀ w, (s.ty, w) ∈ walk.undefs → T s w
  stored : ∀ b, Reached p entry b → ∀ v ∈ p.insts b, ∀ s x,
    access? slots p v = some (s, .store x) → (¬ IsLoad slots p x → T s x) ∧
      ∀ s' w, access? slots p x = some (s', .load) → T s' w → T s w

/-- At some point of a block, the slots hold values with a property, and so do the values that stand
for loads. -/
structure Holds (p : Function) (entry : Block) (slots : List Slot) (walk : Renaming)
    (T : Slot → Value → Prop) (b : Block) (held : Held) (before : List Value) : Prop where
  held : ∀ s ∈ slots, ∀ w, (s.address, w) ∈ held → T s w
  loaded : ∀ x ∈ before, ∀ s, access? slots p x = some (s, .load) → T s (repOf walk x)
  above : ∀ d, StrictlyDominates (Edge p) entry d b → ∀ x ∈ p.insts d, ∀ s,
    access? slots p x = some (s, .load) → T s (repOf walk x)

namespace Renamed

variable {T : Slot → Value → Prop}

lemma source_holds {held' : Held} (hT : Flows p entry slots homes walk T)
    (h : Holds p entry slots walk T b held' before) {s : Slot} (hs : s ∈ slots)
    (hsource : SourceOf walk.undefs s (held'.lookup s.address) w) : T s w := by
  cases hl : held'.lookup s.address with
  | some x =>
    rw [hl] at hsource
    rw [hsource]
    exact h.held s hs x (mem_of_lookup hl)
  | none =>
    rw [hl] at hsource
    exact hT.undef s hs w hsource

lemma holds_step (h : Stage p entry doms slots homes placed)
    (hr : Renamed p entry doms slots homes placed walk held)
    (hT : Flows p entry slots homes walk T) (hb : Reached p entry b)
    (hsplit : placed.function.insts b = before ++ v :: after)
    (hbefore : Holds p entry slots walk T b (holdAfter slots p placed walk (held b) before) before) :
    Holds p entry slots walk T b (holdAfter slots p placed walk (held b) (before ++ [v]))
      (before ++ [v]) where
  held s hs w hw := by
    have hstep : holdAfter slots p placed walk (held b) (before ++ [v]) =
        holdStep slots p placed.phis (repOf walk)
          (holdAfter slots p placed walk (held b) before) v := by
      rw [holdAfter, foldl_append]
      rfl
    rw [hstep, holdStep] at hw
    split at hw
    · next t hphi =>
      rcases mem_cons.mp hw with heq | hw
      · obtain ⟨hst, rfl⟩ := Prod.mk.inj heq
        obtain ⟨i, c, hget, rfl⟩ := h.inserted.lookup_eq_some_iff.mp hphi
        rw [h.distinct.eq hs (h.homes_get hget).1 hst]
        exact hT.phi i t c hget
      · exact hbefore.held s hs w hw
    · split at hw
      · next t x hacc =>
        rcases mem_cons.mp hw with heq | hw
        · obtain ⟨hst, rfl⟩ := Prod.mk.inj heq
          obtain ⟨ht, hinst⟩ := (access?_eq_store_iff h.distinct).mp hacc
          rw [h.distinct.eq hs ht hst]
          have hv : v ∈ p.insts b := by
            rw [h.old_split hb hsplit (Function.lt_size_of_inst? hinst)]
            exact mem_append_right _ mem_cons_self
          obtain ⟨hplain, hload⟩ := hT.stored b hb v hv t x hacc
          by_cases hx : IsLoad slots p x
          · obtain ⟨s', hacc'⟩ := hx
            refine hload s' _ hacc' ?_
            rcases h.operand_before hb hsplit hinst rfl (w := x) (by simp [Inst.operands]) with
              hx | ⟨d, hd, hx⟩
            · exact hbefore.loaded x hx s' hacc'
            · exact hbefore.above d hd x hx s' hacc'
          · rw [hr.agrees.other x hx]
            exact hplain hx
        · exact hbefore.held s hs w hw
      · exact hbefore.held s hs w hw
  loaded x hx s hacc := by
    rcases mem_append.mp hx with hx | hx
    · exact hbefore.loaded x hx s hacc
    · obtain rfl := mem_singleton.mp hx
      have hs := ((access?_eq_load_iff h.distinct).mp hacc).1
      exact source_holds hT hbefore hs (hr.load_source b hb before x after s hsplit hacc)
  above := hbefore.above

/-- The property holds at every point, by induction along the dominator tree and down the block. -/
lemma holds (h : Stage p entry doms slots homes placed)
    (hr : Renamed p entry doms slots homes placed walk held)
    (hT : Flows p entry slots homes walk T) (hb : Reached p entry b)
    (hsplit : placed.function.insts b = before ++ after) :
    Holds p entry slots walk T b (holdAfter slots p placed walk (held b) before) before := by
  induction hn : doms.order.idxOf b using Nat.strong_induction_on
    generalizing b before after with
  | _ n ih =>
    subst hn
    have habove : ∀ d, StrictlyDominates (Edge p) entry d b → ∀ x ∈ p.insts d, ∀ s,
        access? slots p x = some (s, .load) → T s (repOf walk x) := by
      intro d hd x hx s hacc
      have hdr := hd.1.reachable hb
      have hlt : doms.order.idxOf d < doms.order.idxOf b := by
        refine lt_of_le_of_ne (h.dom.idxOf_le h.pruned.predsAgree hb hd.1) fun heq => hd.2 ?_
        exact (idxOf_inj ((h.dom.mem_order_iff d).mpr hdr)).mp heq
      exact (ih _ hlt hdr (append_nil _).symm rfl).loaded x (h.mem_insts.mpr (.inl hx)) s hacc
    have hstart : Holds p entry slots walk T b (held b) [] := by
      refine ⟨fun s hs w hw => ?_, by simp, habove⟩
      by_cases hne : b = entry
      · rw [hne, hr.held_entry] at hw
        cases hw
      · obtain ⟨d, hidom⟩ := h.dom.idom_exists b hb hne
        obtain ⟨-, hdb⟩ := (h.dom.idom_iff b d).mp hidom
        rw [hr.held_child b d hidom] at hw
        have := ih _ (h.dom.idxOf_lt h.pruned.predsAgree hidom) (hdb.1.1.reachable hb)
          (append_nil _).symm rfl
        exact this.held s hs w hw
    induction before using List.reverseRecOn generalizing after with
    | nil => exact hstart
    | append_singleton before v ihb =>
      have hsplit' : placed.function.insts b = before ++ v :: after := by
        rw [hsplit]
        simp
      exact hr.holds_step h hT hb hsplit' (ihb hsplit')

end Renamed

/-! ### What stands for an operand is kept -/

lemma not_isDropped_of_store (h : Stage p entry doms slots homes placed) {x : Value}
    (hprivate : isPromoted slots x = false) (hload : ¬ IsLoad slots p x)
    (hstore : p.instIs isStore x = false) : isDropped slots p x = false := by
  by_contra hdropped
  rcases isDropped_iff.mp (Bool.eq_true_of_not_eq_false hdropped) with hs | hs | ⟨s, y, hacc⟩
  · rw [isPromoted_iff.mpr hs] at hprivate
    cases hprivate
  · exact hload hs
  · rw [Function.instIs, ((access?_eq_store_iff h.distinct).mp hacc).2] at hstore
    cases hstore

/-- No slot holds a slot, and none holds an access to a slot. -/
lemma Plain.flows (hplain : Plain p entry) (h : Stage p entry doms slots homes placed)
    (hr : Renamed p entry doms slots homes placed walk held) :
    Flows p entry slots homes walk fun _ w => isDropped slots p w = false where
  phi i s b _ := h.not_isDropped_of_le (Nat.le_add_right ..)
  undef s _ w hw := by
    refine h.not_isDropped_of_le ?_
    have := (hr.walked.undef_lt hw).1
    dsimp only at this
    omega
  stored b hb v hv s x hacc := by
    obtain ⟨-, hinst⟩ := (access?_eq_store_iff h.distinct).mp hacc
    refine ⟨fun hload => not_isDropped_of_store h ?_ hload ?_, fun _ _ _ hw => hw⟩
    · refine h.not_isPromoted_of_escaping hb hv ?_
      rw [escaping, hinst]
      exact mem_singleton_self x
    · exact hplain.stores_unused b hb v hv _ hinst x (by simp [Inst.operands])

/-- A value that can be used after promotion: it is grounded at some point, and kept. -/
structure Survives (p : Function) (entry : Block) (slots : List Slot) (placed : Placed)
    (walk : Renaming) (b : Block) (before : List Value) (w : Value) : Prop extends
    Grounded p entry slots placed walk b before w where
  kept : isDropped slots p w = false

namespace Renamed

lemma rep_survives (h : Stage p entry doms slots homes placed)
    (hr : Renamed p entry doms slots homes placed walk held) (hplain : Plain p entry)
    (hb : Reached p entry b) (hsplit : placed.function.insts b = before ++ after) {x : Value}
    (hx : Available p entry b before x) (hprivate : isPromoted slots x = false)
    (hstore : p.instIs isStore x = false) :
    Survives p entry slots placed walk b before (repOf walk x) := by
  refine ⟨hr.available_grounded h hb hsplit hx, ?_⟩
  have hholds := hr.holds h (hplain.flows h hr) hb hsplit
  by_cases hload : IsLoad slots p x
  · obtain ⟨s, hacc⟩ := hload
    rcases hx with hx | ⟨d, hd, hx⟩
    · exact hholds.loaded x hx s hacc
    · exact hholds.above d hd x hx s hacc
  · rw [hr.agrees.other x hload]
    exact not_isDropped_of_store h hprivate hload hstore

lemma source_survives (h : Stage p entry doms slots homes placed)
    (hr : Renamed p entry doms slots homes placed walk held) (hplain : Plain p entry)
    (hb : Reached p entry b) {s : Slot} (hs : s ∈ slots) (hsource : SourceOf walk.undefs s
      ((holdAfter slots p placed walk (held b) (placed.function.insts b)).lookup s.address) w) :
    Survives p entry slots placed walk b (placed.function.insts b) w := by
  have hsplit := (append_nil (placed.function.insts b)).symm
  obtain ⟨hheld, -⟩ := hr.grounded h hb hsplit
  have hT := hplain.flows h hr
  exact ⟨hr.source_grounded h hheld hsource, source_holds hT (hr.holds h hT hb hsplit) hs hsource⟩

end Renamed

/-! ### The instructions of the promoted function -/

namespace Promoted

def lead (p : Function) (entry b : Block) : List Value :=
  if b = entry then p.params else []

def fresh (entry : Block) (walk : Renaming) (b : Block) : List Value :=
  if b = entry then (walk.undefs.map Prod.snd).reverse else []

lemma mem_fresh (hv : v ∈ fresh entry walk b) : b = entry ∧ ∃ ty, (ty, v) ∈ walk.undefs := by
  unfold fresh at hv
  split at hv
  · next hb =>
    obtain ⟨e, he, rfl⟩ := mem_map.mp (mem_reverse.mp hv)
    exact ⟨hb, e.1, he⟩
  · cases hv

section

variable (h : Stage p entry doms slots homes placed)
include h

lemma lead_kept (hv : v ∈ lead p entry b) :
    b = entry ∧ v ∈ p.params ∧ isDropped slots p v = false := by
  unfold lead at hv
  split at hv
  · next hb =>
    exact ⟨hb, hv, h.not_isDropped_of_instIs (h.pruned.params_param v hv) not_isSlotInst_of_isParam⟩
  · cases hv

/-- Behind what leads it and the undefined values, a block has what is kept of it. -/
lemma insts_split (hg : Promoted p entry slots homes placed walk held g)
    (hb : Reached p entry b) : ∃ rest, placed.function.insts b = lead p entry b ++ rest ∧
      g.insts b = lead p entry b ++ fresh entry walk b ++ rest.filter (!isDropped slots p ·) := by
  by_cases hne : b = entry
  · subst hne
    rw [lead, fresh, if_pos rfl, if_pos rfl, h.insts_entry]
    exact ⟨_, List.prefix_iff_eq_append.mp h.pruned.params_lead |>.symm, hg.insts_entry⟩
  · rw [lead, fresh, if_neg hne, if_neg hne]
    refine ⟨placed.function.insts b, rfl, ?_⟩
    have hphis : (p.phis b).filter (!isDropped slots p ·) = p.phis b := by
      refine filter_eq_self.mpr fun v hv => ?_
      rw [h.not_isDropped_of_instIs (p.instIs_of_mem_phis hv) not_isSlotInst_of_isPhi]
      rfl
    have hnew : (newPhis p homes b).filter (!isDropped slots p ·) = newPhis p homes b := by
      refine filter_eq_self.mpr fun v hv => ?_
      obtain ⟨i, s, -, rfl⟩ := mem_newPhis_iff.mp hv
      rw [h.not_isDropped_of_le (Nat.le_add_right ..)]
      rfl
    rw [hg.insts_eq b hb hne, h.arranged, filter_append, filter_append, hphis,
      hnew]
    rfl

lemma mem_insts_iff (hg : Promoted p entry slots homes placed walk held g)
    (hb : Reached p entry b) :
    v ∈ g.insts b ↔ (v ∈ placed.function.insts b ∧ isDropped slots p v = false) ∨
      v ∈ fresh entry walk b := by
  obtain ⟨rest, hplaced, hinsts⟩ := hg.insts_split h hb
  rw [hplaced, hinsts]
  simp only [mem_append, mem_filter, Bool.not_eq_true']
  constructor
  · rintro ((hv | hv) | hv)
    · exact .inl ⟨.inl hv, (lead_kept h hv).2.2⟩
    · exact .inr hv
    · exact .inl ⟨.inr hv.1, hv.2⟩
  · rintro (⟨hv | hv, hkept⟩ | hv)
    · exact .inl (.inl hv)
    · exact .inr ⟨hv, hkept⟩
    · exact .inl (.inr hv)

lemma insts_filter (hr : Renamed p entry doms slots homes placed walk held)
    (hg : Promoted p entry slots homes placed walk held g) (hb : Reached p entry b) :
    g.insts b = (walk.function.insts b).filter (!isDropped slots p ·) := by
  obtain ⟨rest, hplaced, hinsts⟩ := hg.insts_split h hb
  have hlead : (lead p entry b).filter (!isDropped slots p ·) = lead p entry b := by
    refine filter_eq_self.mpr fun v hv => ?_
    rw [(lead_kept h hv).2.2]
    rfl
  have hfresh : (fresh entry walk b).filter (!isDropped slots p ·) = fresh entry walk b := by
    refine filter_eq_self.mpr fun v hv => ?_
    obtain ⟨-, ty, hundef⟩ := mem_fresh hv
    have := (hr.walked.undef_lt hundef).1
    dsimp only at this
    rw [h.not_isDropped_of_le (by omega)]
    rfl
  have hwalk : walk.function.insts b = lead p entry b ++ fresh entry walk b ++ rest := by
    by_cases hne : b = entry
    · subst hne
      rw [hr.walked.entry_eq, lead, fresh, if_pos rfl, if_pos rfl]
      rw [h.insts_entry, lead, if_pos rfl] at hplaced
      rw [hplaced, drop_left]
    · rw [hr.walked.insts_eq b hne, hplaced, fresh, if_neg hne, append_nil]
  rw [hwalk, hinsts, filter_append, filter_append, hlead, hfresh]

lemma insts_nodup (hr : Renamed p entry doms slots homes placed walk held)
    (hg : Promoted p entry slots homes placed walk held g) (hb : Reached p entry b) :
    (g.insts b).Nodup :=
  ((hr.walked.instsApart h).nodup b (h.pruned.listed b hb)).sublist
    (hg.insts_filter h hr hb ▸ filter_sublist)

/-- An instruction of the promoted function is an old one, an inserted phi or undefined. -/
lemma inst_cases (hg : Promoted p entry slots homes placed walk held g)
    (hb : Reached p entry b) (hv : v ∈ g.insts b) :
    (∃ inst, v ∈ p.insts b ∧ isDropped slots p v = false ∧ p.inst? v = some inst ∧
      g.inst? v = some (inst.mapOperands (repOf walk))) ∨
    (∃ i s, homes[i]? = some (s, b) ∧ v = ⟨p.values.size + i⟩) ∨
    (b = entry ∧ ∃ ty, (ty, v) ∈ walk.undefs ∧ g.inst? v = some (.undef ty)) := by
  rcases (hg.mem_insts_iff h hb).mp hv with ⟨hv, hkept⟩ | hv
  · rcases h.mem_insts.mp hv with hold | hnew
    · obtain ⟨inst, hinst⟩ := Option.isSome_iff_exists.mp (h.pruned.values_exist b hb v hold)
      refine .inl ⟨inst, hold, hkept, hinst, ?_⟩
      rw [hg.inst_kept b hb v hold hkept, hinst]
      rfl
    · exact .inr (.inl (mem_newPhis_iff.mp hnew))
  · obtain ⟨hb, ty, hundef⟩ := mem_fresh hv
    exact .inr (.inr ⟨hb, ty, hundef, hg.inst_undef _ hundef⟩)

end

/-! ### Edges -/

section

variable (h : Stage p entry doms slots homes placed)
  (hr : Renamed p entry doms slots homes placed walk held)
  (hg : Promoted p entry slots homes placed walk held g)
include h hr hg

lemma last_kept (hb : Reached p entry b) :
    ∃ last inst, (g.insts b).getLast? = some last ∧ (p.insts b).getLast? = some last ∧
      p.inst? last = some inst ∧ inst.isTerminator = true ∧
      g.inst? last = some (inst.mapOperands (repOf walk)) := by
  obtain ⟨last, hlast, hterm⟩ := p.terminator?_isSome_iff.mp (h.pruned.terminated b hb)
  have hmem := mem_of_getLast? hlast
  obtain ⟨inst, hinst⟩ := Option.isSome_iff_exists.mp (h.pruned.values_exist b hb last hmem)
  have hkept : isDropped slots p last = false := by
    refine h.not_isDropped_of_instIs hterm fun inst hinst => ?_
    cases inst <;> first | rfl | cases hinst
  refine ⟨last, inst, ?_, hlast, hinst, ?_, ?_⟩
  · have hwalk := (hr.walked.getLast?_insts h hb).trans hlast
    obtain ⟨before, heq⟩ := getLast?_eq_some_iff.mp hwalk
    rw [hg.insts_filter h hr hb, heq, filter_append, filter_singleton, hkept]
    exact getLast?_concat
  · rwa [Function.instIs, hinst] at hterm
  · rw [hg.inst_kept b hb last hmem hkept, hinst]
    rfl

lemma successors_eq (hb : Reached p entry b) : g.successors b = p.successors b := by
  obtain ⟨last, inst, hlast, hold, hinst, -, hinst'⟩ := hg.last_kept h hr hb
  rw [Function.successors_eq, Function.successors_eq, hlast, hold, Option.bind_some,
    Option.bind_some, hinst, hinst', Option.map_some, Option.map_some,
    Inst.successors_mapOperands]

lemma path_iff {trail : List Block} : Path (Edge p) entry b trail ↔ Path (Edge g) entry b trail :=
  Path.congr fun _ _ hq => by rw [Edge, Edge, hg.successors_eq h hr hq]

lemma reached_iff (b : Block) : Reached g entry b ↔ Reached p entry b :=
  exists_congr fun _ => (hg.path_iff h hr).symm

lemma edgeSources_eq (b : Block) : g.edgeSources b = p.edgeSources b := by
  unfold Function.edgeSources
  rw [hg.layout_eq]
  refine flatMap_congr fun q hq => ?_
  rw [hg.successors_eq h hr (h.pruned.layout_reached q hq)]

end

/-! ### Uses behind definitions -/

section

variable (h : Stage p entry doms slots homes placed)
  (hr : Renamed p entry doms slots homes placed walk held)
include h hr

lemma definedBy (hg : Promoted p entry slots homes placed walk held g)
    (hw : Survives p entry slots placed walk b (placed.function.insts b) w) :
    DefinedBy g entry w b := by
  intro trail hpath
  rw [← hg.path_iff h hr] at hpath
  rcases hw.computed with ⟨ty, hundef⟩ | hmem | ⟨d, hd, hmem⟩
  · refine ⟨entry, hpath.entry_mem, (hg.mem_insts_iff h .at_entry).mpr (.inr ?_)⟩
    rw [fresh, if_pos rfl]
    exact mem_reverse.mpr (mem_map.mpr ⟨_, hundef, rfl⟩)
  · exact ⟨b, hpath.mem_self, (hg.mem_insts_iff h ⟨_, hpath⟩).mpr (.inl ⟨hmem, hw.kept⟩)⟩
  · have hdr := hd.1.reachable ⟨_, hpath⟩
    exact ⟨d, hd.1 trail hpath, (hg.mem_insts_iff h hdr).mpr (.inl ⟨hmem, hw.kept⟩)⟩

lemma definedBefore (hg : Promoted p entry slots homes placed walk held g) {place : Nat}
    (hsplit : placed.function.insts b = before ++ v :: after) (hv : v ∉ lead p entry b)
    (hkept : isDropped slots p v = false) (hplace : (g.insts b)[place]? = some v)
    (hw : Survives p entry slots placed walk b before w) : DefinedBefore g entry w b place := by
  intro earlier hpath
  rw [← hg.path_iff h hr] at hpath
  have hb : Reached p entry b := ⟨_, hpath⟩
  obtain ⟨rest, hplaced, hinsts⟩ := hg.insts_split h hb
  obtain ⟨middle, hbefore, hrest⟩ : ∃ middle, before = lead p entry b ++ middle ∧
      rest = middle ++ v :: after := by
    rw [hsplit] at hplaced
    rcases append_eq_append_iff.mp hplaced with ⟨tail, hlead, hrest⟩ | ⟨middle, hbefore, hrest⟩
    · cases tail with
      | nil => exact ⟨[], by simpa using hlead.symm, hrest.symm⟩
      | cons u tail =>
        obtain ⟨rfl, -⟩ := List.cons.inj hrest
        exact absurd (hlead ▸ mem_append_right _ mem_cons_self) hv
    · exact ⟨middle, hbefore, hrest⟩
  have htake : (g.insts b).take place =
      lead p entry b ++ fresh entry walk b ++ middle.filter (!isDropped slots p ·) := by
    have heq : g.insts b = (lead p entry b ++ fresh entry walk b ++
        middle.filter (!isDropped slots p ·)) ++ v :: after.filter (!isDropped slots p ·) := by
      rw [hinsts, hrest, filter_append, filter_cons_of_pos (by simp [hkept])]
      simp only [append_assoc]
    have hget : (g.insts b)[(lead p entry b ++ fresh entry walk b ++
        middle.filter (!isDropped slots p ·)).length]? = some v := by
      rw [heq, getElem?_append_right le_rfl, Nat.sub_self]
      rfl
    have hlt := (List.getElem?_eq_some_iff.mp hplace).1
    rw [(List.getElem?_inj hlt (hg.insts_nodup h hr hb)).mp (hplace.trans hget.symm), heq,
      List.take_left]
  rw [htake]
  rcases hw.computed with ⟨ty, hundef⟩ | hmem | ⟨d, hd, hmem⟩
  · have hmem : w ∈ fresh entry walk entry := by
      rw [fresh, if_pos rfl]
      exact mem_reverse.mpr (mem_map.mpr ⟨_, hundef, rfl⟩)
    by_cases hne : b = entry
    · rw [hne]
      exact .inl (mem_append_left _ (mem_append_right _ hmem))
    · have hentry := (mem_cons.mp hpath.entry_mem).resolve_left (Ne.symm hne)
      exact .inr ⟨entry, hentry, (hg.mem_insts_iff h .at_entry).mpr (.inr hmem)⟩
  · rw [hbefore] at hmem
    rcases mem_append.mp hmem with hmem | hmem
    · exact .inl (mem_append_left _ (mem_append_left _ hmem))
    · exact .inl (mem_append_right _ (mem_filter.mpr ⟨hmem, by simp [hw.kept]⟩))
  · have hdr := hd.1.reachable hb
    have hearlier := (mem_cons.mp (hd.1 _ hpath)).resolve_left hd.2
    exact .inr ⟨d, hearlier, (hg.mem_insts_iff h hdr).mpr (.inl ⟨hmem, hw.kept⟩)⟩

lemma operands_defined (hplain : Plain p entry)
    (hg : Promoted p entry slots homes placed walk held g) (hb : Reached p entry b)
    {place : Nat} {inst : Inst} (hplace : (g.insts b)[place]? = some v)
    (hinst : g.inst? v = some inst) (hphi : inst.isPhi = false) (hw : w ∈ inst.operands)
    :
    DefinedBefore g entry w b place := by
  rcases hg.inst_cases h hb (mem_of_getElem? hplace) with
    ⟨old, hv, hkept, hold, hnew⟩ | ⟨i, s, hget, rfl⟩ | ⟨-, ty, -, hnew⟩
  · obtain rfl := Option.some.inj (hinst.symm.trans hnew)
    have hphi' : old.isPhi = false := by cases old <;> first | rfl | cases hphi
    rw [Inst.operands_mapOperands, mem_map] at hw
    obtain ⟨x, hx, rfl⟩ := hw
    obtain ⟨before, after, hsplit⟩ := append_of_mem (h.mem_insts.mpr (.inl hv))
    obtain ⟨-, havail⟩ := h.operand_ready hb hsplit hold hphi' hx
    have hlead : v ∉ lead p entry b := by
      intro hlead
      have hparam := h.pruned.params_param v (lead_kept h hlead).2.1
      rw [Function.instIs, hold] at hparam
      cases old <;> first | (cases hparam; done) | cases hx
    exact hg.definedBefore h hr hsplit hlead hkept hplace
      (hr.rep_survives h hplain hb hsplit havail (h.operand_not_isPromoted hb hv hkept hold hx)
        (hplain.stores_unused b hb v hv old hold x hx))
  · obtain ⟨args, hnew, -⟩ := hg.inst_phi i s b hget
    obtain rfl := Option.some.inj (hinst.symm.trans hnew)
    cases hphi
  · obtain rfl := Option.some.inj (hinst.symm.trans hnew)
    cases hw

/-- What flows into a phi is computed at the end of the block that it comes from. -/
lemma args_defined (hplain : Plain p entry) (hg : Promoted p entry slots homes placed walk held g)
    (hb : Reached p entry b) (hv : v ∈ g.insts b)
    (hinst : g.inst? v = some (.phi ty args)) {edge : Block × Value}
    (hedge : edge ∈ (p.preds b).zip args) : DefinedBy g entry edge.2 edge.1 := by
  obtain ⟨j, hj⟩ := mem_iff_getElem?.mp hedge
  obtain ⟨hpred, harg⟩ := getElem?_zip_eq_some.mp hj
  have hq := h.pruned.preds_reached b hb edge.1 (mem_of_getElem? hpred)
  rcases hg.inst_cases h hb hv with
    ⟨old, hold, hkept, hinst', hnew⟩ | ⟨i, s, hget, rfl⟩ | ⟨-, ty, -, hnew⟩
  · obtain ⟨args', rfl, rfl⟩ : ∃ args', old = .phi ty args' ∧ args = args'.map (repOf walk) := by
      have heq := Option.some.inj (hnew.symm.trans hinst)
      cases old <;> first | (cases heq; done) | skip
      obtain ⟨rfl, rfl⟩ := Inst.phi.inj heq
      exact ⟨_, rfl, rfl⟩
    rw [getElem?_map] at harg
    obtain ⟨x, hx, hrep⟩ := Option.map_eq_some_iff.mp harg
    obtain ⟨-, hprivate, havail⟩ := h.phi_arg_ready hq hb hold hinst' hpred hx
    have hstore := hplain.stores_unused b hb v hold _ hinst' x (mem_of_getElem? hx)
    rw [← hrep]
    exact hg.definedBy h hr
      (hr.rep_survives h hplain hq (append_nil _).symm havail hprivate hstore)
  · obtain ⟨args', hnew, -, hsource⟩ := hg.inst_phi i s b hget
    obtain ⟨rfl, rfl⟩ := Inst.phi.inj (Option.some.inj (hinst.symm.trans hnew))
    obtain ⟨w, hw, hsource⟩ := hsource j edge.1 hpred
    obtain rfl := Option.some.inj (harg.symm.trans hw)
    exact hg.definedBy h hr (hr.source_survives h hplain hq (h.homes_get hget).1 hsource)
  · cases Option.some.inj (hnew.symm.trans hinst)

end

/-! ### The promoted function is well formed -/

lemma isPhi_mapOperands (f : Value → Value) (inst : Inst) :
    (inst.mapOperands f).isPhi = inst.isPhi := by
  cases inst <;> rfl

section

variable (h : Stage p entry doms slots homes placed)
include h

lemma phis_first (hplain : Plain p entry) (hg : Promoted p entry slots homes placed walk held g)
    (hb : Reached p entry b) (hv : v ∈ g.afterPhis b) : g.instIs Inst.isPhi v = false := by
  by_cases hne : b = entry
  · subst hne
    have hmem : v ∈ g.insts b := mem_of_mem_drop hv
    rcases hg.inst_cases h hb hmem with ⟨old, hold, -, hinst, hnew⟩ | ⟨i, s, hget, -⟩ |
      ⟨-, ty, -, hnew⟩
    · have hphi := hplain.entry_phi v hold
      rw [Function.instIs, hinst, Option.any_some] at hphi
      rw [Function.instIs, hnew, Option.any_some, isPhi_mapOperands, hphi]
    · exact absurd rfl (h.homes_get hget).2.2
    · rw [Function.instIs, hnew]
      rfl
  · rw [hg.afterPhis_eq h hb hne] at hv
    obtain ⟨hv, hkept⟩ := mem_filter.mp hv
    have hmem : v ∈ p.insts b := p.phis_append_afterPhis b ▸ mem_append_right _ hv
    rw [hg.isPhi_kept hb hmem (by simpa using hkept), h.pruned.phis_first b hb v hv]

lemma terminator_last (hr : Renamed p entry doms slots homes placed walk held)
    (hg : Promoted p entry slots homes placed walk held g) (hb : Reached p entry b)
    (hv : v ∈ (g.insts b).dropLast) : g.instIs Inst.isTerminator v = false := by
  obtain ⟨last, inst, hlast, hold, -⟩ := hg.last_kept h hr hb
  rcases hg.inst_cases h hb (mem_of_mem_dropLast hv) with ⟨old, hmem, -, hinst, hnew⟩ |
    ⟨i, s, hget, rfl⟩ | ⟨-, ty, -, hnew⟩
  · obtain ⟨before, heq⟩ := getLast?_eq_some_iff.mp hlast
    obtain ⟨before', heq'⟩ := getLast?_eq_some_iff.mp hold
    have hnodup := hg.insts_nodup h hr hb
    rw [heq, dropLast_concat] at hv
    rw [heq, nodup_append] at hnodup
    have hmem' : v ∈ (p.insts b).dropLast := by
      rw [heq', dropLast_concat]
      rw [heq', mem_append, mem_singleton] at hmem
      exact hmem.resolve_right fun hvl => hnodup.2.2 v hv last (mem_singleton_self _) hvl
    have hterm := h.pruned.terminator_last b hb v hmem'
    rw [Function.instIs, hinst, Option.any_some] at hterm
    rw [Function.instIs, hnew, Option.any_some, Inst.isTerminator_mapOperands, hterm]
  · obtain ⟨args, hnew, -⟩ := hg.inst_phi i s b hget
    rw [Function.instIs, hnew]
    rfl
  · rw [Function.instIs, hnew]
    rfl

lemma phi_arity (hg : Promoted p entry slots homes placed walk held g)
    (hb : Reached p entry b) (hv : v ∈ g.insts b)
    (hinst : g.inst? v = some (.phi ty args)) : args.length = (p.preds b).length := by
  rcases hg.inst_cases h hb hv with
    ⟨old, hold, -, hinst', hnew⟩ | ⟨i, s, hget, rfl⟩ | ⟨-, ty, -, hnew⟩
  · have heq := Option.some.inj (hnew.symm.trans hinst)
    cases old with
    | phi ty' args' =>
      obtain ⟨-, rfl⟩ := Inst.phi.inj heq
      rw [length_map]
      exact h.pruned.phi_length hb hold hinst'
    | _ => cases heq
  · obtain ⟨args', hnew, hlen, -⟩ := hg.inst_phi i s b hget
    obtain ⟨-, rfl⟩ := Inst.phi.inj (Option.some.inj (hinst.symm.trans hnew))
    exact hlen
  · cases Option.some.inj (hnew.symm.trans hinst)

/-- The promoted function is well formed, and all of it can be reached. -/
theorem pruned (hr : Renamed p entry doms slots homes placed walk held)
    (hplain : Plain p entry) (hg : Promoted p entry slots homes placed walk held g) :
    Pruned g entry := by
  have hreach := hg.reached_iff h hr
  have hapart := hr.walked.instsApart h
  have hwalk {b : Block} (hb : Reached p entry b) {v : Value} (hv : v ∈ g.insts b) :
      v ∈ walk.function.insts b := by
    rw [hg.insts_filter h hr hb] at hv
    exact (mem_filter.mp hv).1
  exact
    { entry_eq := by rw [Function.entry?, hg.layout_eq]; exact h.pruned.entry_eq
      layout_nodup := by rw [hg.layout_eq]; exact h.pruned.layout_nodup
      listed := fun b hb => by
        rw [hg.layout_eq]
        exact h.pruned.listed b ((hreach b).mp hb)
      blocks_exist := fun b hb => by
        rw [hg.blocks_size]
        exact h.pruned.blocks_exist b ((hreach b).mp hb)
      values_exist := fun b hb v hv => by
        rcases hg.inst_cases h ((hreach b).mp hb) hv with ⟨_, _, _, _, hnew⟩ | ⟨i, s, hget, rfl⟩ |
          ⟨_, _, _, hnew⟩
        · rw [hnew]; rfl
        · obtain ⟨args, hnew, -⟩ := hg.inst_phi i s b hget
          rw [hnew]; rfl
        · rw [hnew]; rfl
      insts_nodup := fun b hb => hg.insts_nodup h hr ((hreach b).mp hb)
      home_unique := fun b c hb hc v hv hv' => by
        rw [hreach] at hb hc
        exact hapart.apart b (h.pruned.listed b hb) c (h.pruned.listed c hc) v (hwalk hb hv)
          (hwalk hc hv')
      terminated := fun b hb => by
        obtain ⟨last, inst, hlast, -, -, hterm, hinst⟩ := hg.last_kept h hr ((hreach b).mp hb)
        refine g.terminator?_isSome_iff.mpr ⟨last, hlast, ?_⟩
        rw [Function.instIs, hinst, Option.any_some, Inst.isTerminator_mapOperands, hterm]
      terminator_last := fun b hb v hv => hg.terminator_last h hr ((hreach b).mp hb) hv
      preds_perm := fun b hb => by
        rw [hg.preds_eq, hg.edgeSources_eq h hr]
        exact h.pruned.preds_perm b ((hreach b).mp hb)
      entry_preds := by rw [hg.preds_eq]; exact h.pruned.entry_preds
      phis_first := fun b hb v hv => hg.phis_first h hplain ((hreach b).mp hb) hv
      phi_arity := fun b hb v hv ty args hinst => by
        rw [hg.preds_eq]
        exact hg.phi_arity h ((hreach b).mp hb) (g.phis_subset hv) hinst
      params_lead := by
        rw [hg.params_eq, hg.insts_entry, append_assoc]
        exact List.prefix_append _ _
      params_param := fun v hv => by
        rw [hg.params_eq] at hv
        have hparam := h.pruned.params_param v hv
        have hkept := h.not_isDropped_of_instIs hparam not_isSlotInst_of_isParam
        rw [Function.instIs, hg.inst_kept entry .at_entry v (h.pruned.params_lead.subset hv) hkept]
        rw [Function.instIs] at hparam
        cases hinst : p.inst? v with
        | none => rw [hinst] at hparam; cases hparam
        | some inst =>
          rw [hinst] at hparam
          cases inst <;> first | rfl | cases hparam
      params_only := fun b hb v hv hparam => by
        rw [hreach] at hb
        rw [hg.params_eq]
        rcases hg.inst_cases h hb hv with ⟨old, hmem, _, hinst, hnew⟩ | ⟨i, s, hget, rfl⟩ |
          ⟨_, _, _, hnew⟩
        · refine h.pruned.params_only b hb v hmem ?_
          rw [Function.instIs, hnew] at hparam
          rw [Function.instIs, hinst]
          cases old <;> first | rfl | cases hparam
        · obtain ⟨args, hnew, -⟩ := hg.inst_phi i s b hget
          rw [Function.instIs, hnew] at hparam
          cases hparam
        · rw [Function.instIs, hnew] at hparam
          cases hparam
      defined := fun b hb place v inst hplace hinst hphi w hw =>
        hg.operands_defined h hr hplain ((hreach b).mp hb) hplace hinst hphi hw
      phi_defined := fun b hb v hv ty args hinst edge hedge _ => by
        rw [hg.preds_eq] at hedge
        exact hg.args_defined h hr hplain ((hreach b).mp hb) hv hinst hedge
      layout_reached := fun b hb => by
        rw [hg.layout_eq] at hb
        exact (hreach b).mpr (h.pruned.layout_reached b hb)
      preds_reached := fun b hb q hq => by
        rw [hg.preds_eq] at hq
        exact (hreach q).mpr (h.pruned.preds_reached b ((hreach b).mp hb) q hq) }

lemma homed (hr : Renamed p entry doms slots homes placed walk held)
    (hg : Promoted p entry slots homes placed walk held g) (hp : Homed p) : Homed g := by
  intro b hb v hv
  rw [hg.layout_eq] at hb
  have hreach := h.pruned.layout_reached b hb
  have hblock : (g.value? v).map ValueInfo.block = some (some b) := by
    rcases hg.inst_cases h hreach hv with ⟨_, hold, hkept, -⟩ | ⟨i, s, -, rfl⟩ |
      ⟨-, ty, hundef, -⟩
    · rw [hg.block_old b hreach v hold hkept]
      obtain ⟨info, hinfo, hhome⟩ := Option.bind_eq_some_iff.mp (hp b hb v hold)
      rw [hinfo, Option.map_some, hhome]
    · exact hg.block_new b hreach _ hv (Nat.le_add_right ..)
    · have hge := (hr.walked.undef_lt hundef).1
      dsimp only at hge
      exact hg.block_new b hreach v hv (by omega)
  obtain ⟨info, hinfo, hhome⟩ := Option.map_eq_some_iff.mp hblock
  rw [hinfo, Option.bind_some, hhome]

end

end Promoted

end SsaLowering.Proofs
