import SsaLowering.Proofs.Renaming

/-!
# What flows into the inserted phis

When a block is left, the inserted phis of its successors get, at the places of the edges from the
block, what their slots hold at its end. Other places stay as they are. Over all visits, every
argument of every inserted phi is filled in.
-/

namespace SsaLowering.Proofs

open Ir Ssa List

variable {b t : Block} {walk : Renaming} {held : Held} {i : Nat} {visits : List (Block × Held)}

/-! ### Setting arguments -/

def placesOf (preds : List Block) (b : Block) : List Nat :=
  preds.zipIdx.filterMap fun (pred, place) => if pred = b then some place else none

lemma mem_placesOf_iff {preds : List Block} {j : Nat} :
    j ∈ placesOf preds b ↔ preds[j]? = some b := by
  unfold placesOf
  rw [mem_filterMap]
  constructor
  · rintro ⟨⟨pred, place⟩, hmem, heq⟩
    dsimp only at heq
    split at heq
    · next hpred =>
      cases heq
      rw [← hpred]
      exact mk_mem_zipIdx_iff_getElem?.mp hmem
    · cases heq
  · intro hget
    exact ⟨(b, j), mk_mem_zipIdx_iff_getElem?.mpr hget, by simp⟩

def setPlaces (places : List Nat) (w : Value) (args : List Value) : List Value :=
  places.foldl (fun args place => args.set place w) args

lemma length_setPlaces (places : List Nat) (w : Value) (args : List Value) :
    (setPlaces places w args).length = args.length := by
  unfold setPlaces
  induction places generalizing args with
  | nil => rfl
  | cons place places ih => rw [foldl_cons, ih, length_set]

lemma getElem?_setPlaces (places : List Nat) (w : Value) (args : List Value) (j : Nat) :
    (setPlaces places w args)[j]? =
      if j ∈ places ∧ j < args.length then some w else args[j]? := by
  unfold setPlaces
  induction places generalizing args with
  | nil => simp
  | cons place places ih =>
    rw [foldl_cons, ih, length_set, getElem?_set]
    by_cases hj : j < args.length
    · by_cases hmem : j ∈ places
      · simp [hj, hmem]
      · by_cases heq : place = j
        · subst heq
          simp [hj, hmem]
        · simp [hmem, heq, Ne.symm heq]
    · have hnone : args[j]? = none := getElem?_eq_none (by omega)
      by_cases heq : place = j
      · subst heq
        simp [hj]
      · simp [hj, heq]

def fillPhi (scene : Scene) (held : Held) (places : List Nat) (walk : Renaming) (phi : Value) :
    Renaming :=
  match scene.phis.lookup phi with
  | none => walk
  | some slot =>
    let (incoming, walk) := walk.current held slot
    { walk with
      function := walk.function.modifyValue phi fun info =>
        { info with inst := setArgs places incoming info.inst } }

lemma fillEdge_eq (scene : Scene) (held : Held) (b : Block) (walk : Renaming) (t : Block) :
    fillEdge scene held b walk t =
      (walk.function.phis t).foldl (fillPhi scene held (placesOf (walk.function.preds t) b))
        walk :=
  rfl

section

variable {p : Function} {entry : Block} {doms : Dominators} {slots : List Slot}
  {homes : List (Slot × Block)} {placed : Placed}

/-- An inserted phi has, for the edges from a block, what its slot holds at the end of it. -/
def Filled (p : Function) (walk : Renaming) (b : Block) (held : Held) (i : Nat) (s : Slot)
    (c : Block) : Prop :=
  ∀ j : Nat, (p.preds c)[j]? = some b → ∃ w,
    (argsOf walk.function ⟨p.values.size + i⟩)[j]? = some w ∧
      SourceOf walk.undefs s (held.lookup s.address) w

/-- A step of the walk that fills in arguments for the edges from one block. -/
structure FillStep (p : Function) (entry : Block) (homes : List (Slot × Block)) (placed : Placed)
    (b : Block) (held : Held) (walk walk' : Renaming) : Prop where
  walked : Walked p entry homes placed walk'
  reads : walk'.reads = walk.reads
  undefs : walk.undefs <+: walk'.undefs
  kept : ∀ (i : Nat) (s : Slot) (c : Block), homes[i]? = some (s, c) → ∀ (j : Nat) (q : Block),
    (p.preds c)[j]? = some q → q ≠ b →
      (argsOf walk'.function ⟨p.values.size + i⟩)[j]? =
        (argsOf walk.function ⟨p.values.size + i⟩)[j]?
  still : ∀ (i : Nat) (s : Slot) (c : Block), homes[i]? = some (s, c) →
    Filled p walk b held i s c → Filled p walk' b held i s c

lemma FillStep.refl (h : Walked p entry homes placed walk) (b : Block) (held : Held) :
    FillStep p entry homes placed b held walk walk :=
  ⟨h, rfl, List.prefix_rfl, fun _ _ _ _ _ _ _ _ => rfl, fun _ _ _ _ hf => hf⟩

lemma FillStep.trans {walk1 walk2 walk3 : Renaming}
    (h : FillStep p entry homes placed b held walk1 walk2)
    (h' : FillStep p entry homes placed b held walk2 walk3) :
    FillStep p entry homes placed b held walk1 walk3 where
  walked := h'.walked
  reads := h'.reads.trans h.reads
  undefs := h.undefs.trans h'.undefs
  kept i s c hget j q hq hne := (h'.kept i s c hget j q hq hne).trans (h.kept i s c hget j q hq hne)
  still i s c hget hf := h'.still i s c hget (h.still i s c hget hf)

lemma FillStep.grows {walk' : Renaming} (h : FillStep p entry homes placed b held walk walk') :
    Grows walk walk' :=
  ⟨h.reads ▸ List.suffix_rfl, h.undefs⟩

lemma Walked.setArgs (h : Walked p entry homes placed walk) {s : Slot}
    (hget : homes[i]? = some (s, t)) (places : List Nat) (w : Value) :
    Walked p entry homes placed { walk with
      function := walk.function.modifyValue ⟨p.values.size + i⟩ fun info =>
        { info with inst := setArgs places w info.inst } } := by
  have hi := (List.getElem?_eq_some_iff.mp hget).1
  refine ⟨?_, ?_, h.blocks_size, h.undef_id, fun e he => ?_, fun v hv => ?_,
    fun j t' c hget' => ?_, h.preds_eq, h.insts_eq, h.entry_eq⟩
  · dsimp only
    rw [h.frame]
    rfl
  · rw [← h.size_eq]
    exact Array.size_modify
  · rw [Function.value?_modifyValue, if_neg]
    · exact h.undef_value e he
    · intro heq
      have := (h.undef_lt he).1
      rw [heq] at this
      dsimp only at this
      omega
  · rw [Function.value?_modifyValue, if_neg]
    · exact h.old_value v hv
    · rintro rfl
      dsimp only at hv
      omega
  · obtain ⟨info, args, hinfo, hinst, hlen, hblock⟩ := h.phi_value j t' c hget'
    rw [Function.value?_modifyValue]
    split
    · rw [hinfo, Option.map_some]
      refine ⟨_, setPlaces places w args, rfl, ?_, (length_setPlaces _ _ _).trans hlen, hblock⟩
      rw [hinst]
      rfl
    · exact ⟨info, args, hinfo, hinst, hlen, hblock⟩

lemma Walked.argsOf_setArgs (h : Walked p entry homes placed walk) {j : Nat} {home : Slot × Block}
    (hget : homes[j]? = some home) (places : List Nat) (w : Value) :
    argsOf (walk.function.modifyValue ⟨p.values.size + i⟩ fun info =>
      { info with inst := Ssa.setArgs places w info.inst }) ⟨p.values.size + j⟩ =
        if j = i then setPlaces places w (argsOf walk.function ⟨p.values.size + j⟩)
        else argsOf walk.function ⟨p.values.size + j⟩ := by
  obtain ⟨info, args, hinfo, hinst, -, -⟩ := h.phi_value j home.1 home.2 hget
  unfold argsOf
  rw [Function.inst?, Function.value?_modifyValue, Function.inst?, hinfo]
  by_cases hji : j = i
  · subst hji
    simp only [if_true, Option.map_some, hinst]
    rfl
  · have hne : (⟨p.values.size + j⟩ : Value) ≠ ⟨p.values.size + i⟩ := by
      intro heq
      have := congrArg Value.id heq
      dsimp only at this
      omega
    rw [if_neg hne, if_neg hji]

lemma Walked.length_argsOf (h : Walked p entry homes placed walk) {s : Slot} {c : Block}
    (hget : homes[i]? = some (s, c)) :
    (argsOf walk.function ⟨p.values.size + i⟩).length = (p.preds c).length := by
  obtain ⟨info, args, hinfo, hinst, hlen, -⟩ := h.phi_value i s c hget
  rw [argsOf, Function.inst?, hinfo, Option.map_some, hinst]
  exact hlen

lemma Stage.fillPhi_step (h : Stage p entry doms slots homes placed)
    (hw : Walked p entry homes placed walk) (b : Block) (held : Held) {phi : Value}
    (hphi : ∀ (i : Nat) (s : Slot) (c : Block), homes[i]? = some (s, c) →
      phi = ⟨p.values.size + i⟩ → c = t) :
    FillStep p entry homes placed b held walk
        (fillPhi (sceneOf slots placed doms) held (placesOf (p.preds t) b) walk phi) ∧
      ∀ (i : Nat) (s : Slot) (c : Block), homes[i]? = some (s, c) → phi = ⟨p.values.size + i⟩ →
        Filled p (fillPhi (sceneOf slots placed doms) held (placesOf (p.preds t) b) walk phi)
          b held i s c := by
  unfold fillPhi sceneOf
  cases hlook : placed.phis.lookup phi with
  | none =>
    refine ⟨.refl hw b held, fun i s c hget heq => ?_⟩
    rw [h.inserted.lookup_eq_some_iff.mpr ⟨i, c, hget, heq⟩] at hlook
    cases hlook
  | some s =>
    obtain ⟨i, c, hget, rfl⟩ := h.inserted.lookup_eq_some_iff.mp hlook
    obtain rfl := hphi i s c hget rfl
    obtain ⟨hw', hadds, hsource⟩ := hw.current h.pruned held s
    have hfilled : ∀ j : Nat, (p.preds c)[j]? = some b →
        (setPlaces (placesOf (p.preds c) b) (walk.current held s).1
          (argsOf (walk.current held s).2.function ⟨p.values.size + i⟩))[j]? =
            some (walk.current held s).1 := by
      intro j hj
      have hlt := (List.getElem?_eq_some_iff.mp hj).1
      rw [← hw'.length_argsOf hget] at hlt
      rw [getElem?_setPlaces, if_pos ⟨mem_placesOf_iff.mpr hj, hlt⟩]
    refine ⟨⟨hw'.setArgs hget _ _, hadds.reads, hadds.undefs, fun j t d hget' k q hq hne => ?_,
      fun j t d hget' hf k hk => ?_⟩, fun j t d hget' heq k hk => ?_⟩
    · dsimp only
      rw [hw'.argsOf_setArgs hget', hadds.argsOf_eq hget']
      split
      · next hji =>
        subst hji
        rw [hget] at hget'
        cases hget'
        have hnot : ¬ (k ∈ placesOf (p.preds c) b ∧
            k < (argsOf walk.function ⟨p.values.size + j⟩).length) := by
          rw [mem_placesOf_iff, hq]
          exact fun hmem => hne (Option.some.inj hmem.1)
        rw [getElem?_setPlaces, if_neg hnot]
      · rfl
    · dsimp only
      rw [hw'.argsOf_setArgs hget']
      split
      · next hji =>
        subst hji
        rw [hget] at hget'
        cases hget'
        exact ⟨_, hfilled k hk, hsource⟩
      · obtain ⟨w, hw1, hw2⟩ := hf k hk
        rw [hadds.argsOf_eq hget']
        exact ⟨w, hw1, hw2.mono hadds.undefs⟩
    · have hji : j = i := by
        have := congrArg Value.id heq
        dsimp only at this
        omega
      subst hji
      rw [hget] at hget'
      cases hget'
      rw [hw'.argsOf_setArgs hget, if_pos rfl]
      exact ⟨_, hfilled k hk, hsource⟩

lemma Stage.foldl_fillPhi (h : Stage p entry doms slots homes placed) (b : Block)
    (held : Held) (phis : List Value)
    (hphis : ∀ phi ∈ phis, ∀ (i : Nat) (s : Slot) (c : Block), homes[i]? = some (s, c) →
      phi = ⟨p.values.size + i⟩ → c = t) (hw : Walked p entry homes placed walk) :
    FillStep p entry homes placed b held walk (phis.foldl
        (fillPhi (sceneOf slots placed doms) held (placesOf (p.preds t) b)) walk) ∧
      ∀ (i : Nat) (s : Slot) (c : Block), homes[i]? = some (s, c) →
        (⟨p.values.size + i⟩ : Value) ∈ phis → Filled p (phis.foldl
          (fillPhi (sceneOf slots placed doms) held (placesOf (p.preds t) b)) walk)
            b held i s c := by
  induction phis generalizing walk with
  | nil => exact ⟨.refl hw b held, by simp⟩
  | cons phi phis ih =>
    obtain ⟨hstep, hfill⟩ := h.fillPhi_step hw b held (hphis phi mem_cons_self)
    obtain ⟨hrest, hfills⟩ := ih (fun x hx => hphis x (mem_cons_of_mem _ hx)) hstep.walked
    refine ⟨hstep.trans hrest, fun i s c hget hmem => ?_⟩
    rcases mem_cons.mp hmem with heq | hmem
    · exact hrest.still i s c hget (hfill i s c hget heq.symm)
    · exact hfills i s c hget hmem

/-! ### One visit -/

section

variable (h : Stage p entry doms slots homes placed) (hw : Walked p entry homes placed walk)
  (hb : Reached p entry b)
include h hw hb

lemma Walked.phis_eq (hne : b ≠ entry) : walk.function.phis b = p.phis b ++ newPhis p homes b := by
  rw [← h.inserted.phis_of_insts (fun v => h.pruned.lt_size hb) (h.pruned.phis_first b hb)
    (h.arranged b)]
  refine Function.phis_congr (hw.insts_eq b hne) fun v hv => ?_
  rw [hw.insts_eq b hne] at hv
  rcases h.mem_insts.mp hv with hold | hnew
  · have hlt := h.pruned.lt_size hb hold
    rw [Function.instIs, hw.inst_old hlt, Function.instIs, h.inserted.inst_old hlt]
  · obtain ⟨i, s, hget, rfl⟩ := mem_newPhis_iff.mp hnew
    obtain ⟨info, args, hinfo, hinst, -, -⟩ := hw.phi_value i s b hget
    rw [Function.instIs, Function.inst?, hinfo, Option.map_some, hinst, Function.instIs,
      h.inserted.inst_new hget]
    rfl

omit h hw hb in
lemma Orderly.drop_params_ne_nil (hf : Orderly p entry) :
    (p.insts entry).drop p.params.length ≠ [] := by
  intro hnil
  have hsplit := List.prefix_iff_eq_append.mp hf.params_lead
  rw [hnil, append_nil] at hsplit
  obtain ⟨v, hv, hterm⟩ := p.terminator?_isSome_iff.mp (hf.terminated entry .at_entry)
  rw [← hsplit] at hv
  have hparam := hf.params_param v (mem_of_getLast? hv)
  unfold Function.instIs at hterm hparam
  cases hi : p.inst? v with
  | none => simp [hi] at hterm
  | some inst => cases inst <;> simp_all [Inst.isTerminator, Inst.isParam]

lemma Walked.getLast?_insts : (walk.function.insts b).getLast? = (p.insts b).getLast? := by
  by_cases hne : b = entry
  · subst hne
    have hnil := h.pruned.drop_params_ne_nil
    rw [hw.entry_eq, getLast?_append_of_ne_nil _ hnil,
      ← getLast?_append_of_ne_nil p.params hnil,
      List.prefix_iff_eq_append.mp h.pruned.params_lead]
  · obtain ⟨body, last, inst, hsplit, -⟩ := h.pruned.afterPhis_split hb
    have hnil : p.afterPhis b ≠ [] := by simp [hsplit]
    rw [hw.insts_eq b hne, h.arranged, getLast?_append_of_ne_nil _ hnil,
      ← getLast?_append_of_ne_nil (p.phis b) hnil, p.phis_append_afterPhis]

lemma Walked.successors_eq : walk.function.successors b = p.successors b := by
  refine Function.successors_congr (hw.getLast?_insts h hb) fun v hv => ?_
  rw [hw.getLast?_insts h hb] at hv
  rw [hw.inst_old (h.pruned.lt_size hb (mem_of_getLast? hv))]

end

lemma Stage.foldl_fillEdge (h : Stage p entry doms slots homes placed) (b : Block)
    (held : Held) (targets : List Block) (htargets : ∀ t ∈ targets, Reached p entry t ∧ t ≠ entry)
    (hw : Walked p entry homes placed walk) :
    FillStep p entry homes placed b held walk
        (targets.foldl (fillEdge (sceneOf slots placed doms) held b) walk) ∧
      ∀ t ∈ targets, ∀ (i : Nat) (s : Slot), homes[i]? = some (s, t) →
        Filled p (targets.foldl (fillEdge (sceneOf slots placed doms) held b) walk)
          b held i s t := by
  induction targets generalizing walk with
  | nil => exact ⟨.refl hw b held, by simp⟩
  | cons t targets ih =>
    obtain ⟨ht, hne⟩ := htargets t mem_cons_self
    have hphis := hw.phis_eq h ht hne
    have honly : ∀ phi ∈ walk.function.phis t, ∀ (i : Nat) (s : Slot) (c : Block),
        homes[i]? = some (s, c) → phi = ⟨p.values.size + i⟩ → c = t := by
      rintro phi hmem i s c hget rfl
      rw [hphis] at hmem
      rcases mem_append.mp hmem with hold | hnew
      · have := h.pruned.lt_size ht (p.phis_subset hold)
        dsimp only at this
        omega
      · obtain ⟨j, s', hget', heq⟩ := mem_newPhis_iff.mp hnew
        have hij : i = j := by
          have := congrArg Value.id heq
          dsimp only at this
          omega
        subst hij
        rw [hget] at hget'
        cases hget'
        rfl
    obtain ⟨hstep, hfill⟩ := h.foldl_fillPhi b held _ honly hw
    rw [← hw.preds_eq t, ← fillEdge_eq] at hstep hfill
    obtain ⟨hrest, hfills⟩ := ih (fun x hx => htargets x (mem_cons_of_mem _ hx)) hstep.walked
    refine ⟨hstep.trans hrest, fun x hx i s hget => ?_⟩
    rcases mem_cons.mp hx with rfl | hx
    · refine hrest.still i s x hget (hfill i s x hget ?_)
      rw [hphis]
      exact mem_append_right _ (mem_newPhis_iff.mpr ⟨i, s, hget, rfl⟩)
    · exact hfills x hx i s hget

/-- A visit fills in the arguments that come from its block, and no others. -/
structure VisitStep (p : Function) (entry : Block) (slots : List Slot)
    (homes : List (Slot × Block)) (placed : Placed) (seen : List Block) (b : Block) (held : Held)
    (walk : Renaming) (result : Held × Renaming) : Prop where
  walked : Walked p entry homes placed result.2
  grows : Grows walk result.2
  kept : ∀ (i : Nat) (s : Slot) (c : Block), homes[i]? = some (s, c) → ∀ (j : Nat) (q : Block),
    (p.preds c)[j]? = some q → q ≠ b →
      (argsOf result.2.function ⟨p.values.size + i⟩)[j]? =
        (argsOf walk.function ⟨p.values.size + i⟩)[j]?
  keyed : Keyed slots p result.2 (b :: seen) []
  held_eq : ∀ rep, Agrees slots p result.2.reads rep →
    result.1 = (placed.function.insts b).foldl (holdStep slots p placed.phis rep) held
  known : ∀ rep, Agrees slots p result.2.reads rep →
    LoadsKnown slots p placed rep result.2 held (placed.function.insts b)
  filled : ∀ t, Edge p b t → ∀ (i : Nat) (s : Slot), homes[i]? = some (s, t) →
    Filled p result.2 b result.1 i s t

lemma Stage.visitStep (h : Stage p entry doms slots homes placed) (hb : Reached p entry b)
    {seen : List Block} (hnew : b ∉ seen) (hreach : ∀ d ∈ seen, Reached p entry d)
    (hseen : ∀ d, StrictlyDominates (Edge p) entry d b → d ∈ seen) (held : Held)
    (hw : Walked p entry homes placed walk) (hk : Keyed slots p walk seen [])
    (hinsts : walk.function.insts b = placed.function.insts b) :
    VisitStep p entry slots homes placed seen b held walk
      (visitBlock (sceneOf slots placed doms) held walk b) := by
  have h1 := h.instsStep hb hnew hreach hseen [] (placed.function.insts b) rfl held walk hw hk
  unfold visitBlock
  rw [hinsts]
  set state := (placed.function.insts b).foldl (renameInst (sceneOf slots placed doms))
    (held, walk) with hstate
  dsimp only
  rw [h1.walked.successors_eq h hb]
  obtain ⟨h2, hfills⟩ := h.foldl_fillEdge b state.1 (p.successors b)
    (fun t ht => ⟨hb.step ht, fun heq => h.pruned.no_edge_to_entry hb (heq ▸ ht)⟩) h1.walked
  refine ⟨h2.walked, h1.grows.trans h2.grows, fun i s c hget j q hq hne => ?_, ⟨fun x => ?_, ?_⟩,
    fun rep hrep => ?_, fun rep hrep => ?_, fun t ht i s hget => ?_⟩
  · rw [h2.kept i s c hget j q hq hne, argsOf, Function.inst?, h1.values _ ?_, argsOf,
      Function.inst?]
    have := (List.getElem?_eq_some_iff.mp hget).1
    dsimp only
    omega
  · rw [h2.reads, h1.keyed.mem_iff, List.nil_append]
    refine and_congr_right fun hx => ?_
    obtain ⟨s, hacc⟩ := hx
    obtain ⟨-, ty, hinst⟩ := (access?_eq_load_iff h.distinct).mp hacc
    have hlt := Function.lt_size_of_inst? hinst
    have hmem : x ∈ placed.function.insts b ↔ x ∈ p.insts b := by
      rw [h.mem_insts]
      refine or_iff_left fun hx' => ?_
      obtain ⟨i, t, -, rfl⟩ := mem_newPhis_iff.mp hx'
      dsimp only at hlt
      omega
    rw [hmem]
    simp
  · rw [h2.reads]
    exact h1.keyed.nodup
  · rw [h2.reads] at hrep
    exact h1.held_eq rep hrep
  · rw [h2.reads] at hrep
    exact (h1.known rep hrep).mono h2.grows
  · exact hfills t ht i s hget

/-! ### All visits -/

/-- The visits so far have renamed and filled in all that they should. -/
structure VisitedAll (p : Function) (entry : Block) (slots : List Slot)
    (homes : List (Slot × Block)) (placed : Placed) (visits : List (Block × Held))
    (walk : Renaming) : Prop where
  walked : Walked p entry homes placed walk
  keyed : Keyed slots p walk (visits.map Prod.fst) []
  known : ∀ rep, Agrees slots p walk.reads rep → ∀ visit ∈ visits,
    LoadsKnown slots p placed rep walk visit.2 (placed.function.insts visit.1)
  filled : ∀ rep, Agrees slots p walk.reads rep → ∀ visit ∈ visits, ∀ t, Edge p visit.1 t →
    ∀ (i : Nat) (s : Slot), homes[i]? = some (s, t) → Filled p walk visit.1
      ((placed.function.insts visit.1).foldl (holdStep slots p placed.phis rep) visit.2) i s t

/-- Visits that cover the blocks below the entry visit each block behind all that dominate it. -/
lemma Covers.above {scene : Scene} (hd : DominatorsOf p entry scene.dominators)
    (h : Covers scene p entry walk [(entry, held)] visits) {before after : List (Block × Held)}
    {c : Block} {held' : Held} (heq : visits = before ++ (c, held') :: after) {d : Block}
    (hdc : StrictlyDominates (Edge p) entry d c) : d ∈ before.map Prod.fst := by
  induction hn : before.length using Nat.strong_induction_on
    generalizing before after c held' with
  | _ n ih =>
    rcases h.descends before c held' after heq with hroot | ⟨before', e, above, between, hb, hidom, -⟩
    · obtain ⟨rfl, -⟩ := Prod.mk.inj (mem_singleton.mp hroot)
      exact absurd rfl hdc.ne_entry
    · obtain ⟨hc, hec⟩ := (hd.idom_iff c e).mp hidom
      have hsub : ∀ x, x = e ∨ x ∈ before'.map Prod.fst → x ∈ before.map Prod.fst := by
        rintro x (rfl | hx)
        · simp [hb]
        · rw [hb, map_append]
          exact mem_append_left _ hx
      refine hsub d ?_
      by_cases hde : d = e
      · exact .inl hde
      · have hsplit : visits = before' ++ (e, above) :: (between ++ (c, held') :: after) := by
          rw [heq, hb]
          simp
        have hlt : before'.length < n := by
          rw [← hn, hb, length_append, length_cons]
          omega
        exact .inr (ih before'.length hlt hsplit ⟨hec.2 d hdc, hde⟩ rfl)

lemma VisitedAll.visit (h : VisitedAll p entry slots homes placed visits walk)
    {result : Held × Renaming} (hnew : b ∉ visits.map Prod.fst)
    (hstep : VisitStep p entry slots homes placed (visits.map Prod.fst) b held walk result) :
    VisitedAll p entry slots homes placed (visits ++ [(b, held)]) result.2 where
  walked := hstep.walked
  keyed := by
    refine ⟨fun x => ?_, hstep.keyed.nodup⟩
    rw [hstep.keyed.mem_iff]
    refine and_congr_right fun _ => or_congr_right (exists_congr fun d => and_congr_left fun _ => ?_)
    rw [map_append, mem_append, mem_cons, or_comm]
    simp
  known rep hrep visit hvisit := by
    rcases mem_append.mp hvisit with hvisit | hvisit
    · exact (h.known rep (hrep.mono hstep.grows.reads) visit hvisit).mono hstep.grows
    · obtain rfl := mem_singleton.mp hvisit
      exact hstep.known rep hrep
  filled rep hrep visit hvisit t ht i s hget j hj := by
    rcases mem_append.mp hvisit with hvisit | hvisit
    · -- arguments filled in before come from other blocks
      have hne : visit.1 ≠ b := fun heq => hnew (heq ▸ mem_map.mpr ⟨visit, hvisit, rfl⟩)
      obtain ⟨w, hw, hsource⟩ :=
        h.filled rep (hrep.mono hstep.grows.reads) visit hvisit t ht i s hget j hj
      rw [hstep.kept i s t hget j visit.1 hj hne]
      exact ⟨w, hw, hsource.mono hstep.grows.undefs⟩
    · obtain rfl := mem_singleton.mp hvisit
      have hfilled := hstep.filled t ht i s hget j hj
      rwa [hstep.held_eq rep hrep] at hfilled

lemma Stage.visitStep_at (h : Stage p entry doms slots homes placed)
    {before after : List (Block × Held)}
    (hc : Covers (sceneOf slots placed doms) p entry { function := placed.function }
      [(entry, [])] visits) (heq : visits = before ++ (b, held) :: after)
    (hv : VisitedAll p entry slots homes placed before (runVisits (sceneOf slots placed doms)
      before { function := placed.function })) :
    b ∉ before.map Prod.fst ∧ VisitStep p entry slots homes placed (before.map Prod.fst) b held
      (runVisits (sceneOf slots placed doms) before { function := placed.function })
      (visitBlock (sceneOf slots placed doms) held (runVisits
        (sceneOf slots placed doms) before { function := placed.function }) b) := by
  have hnodup := hc.nodup
  rw [heq, map_append, map_cons, nodup_append] at hnodup
  have hnew : b ∉ before.map Prod.fst := fun hmem =>
    hnodup.2.2 b hmem b mem_cons_self rfl
  have hreach : ∀ d ∈ visits.map Prod.fst, Reached p entry d := fun d hd => ((hc.mem_iff d).mp hd).1
  have hb : Reached p entry b := hreach b (by simp [heq])
  refine ⟨hnew, h.visitStep hb hnew (fun d hd => hreach d ?_) (fun d hd => hc.above h.dom heq hd)
    held hv.walked hv.keyed ?_⟩
  · rw [heq, map_append]
    exact mem_append_left _ hd
  · by_cases hne : b = entry
    · -- the entry is visited first
      have hnil : before = [] := by
        rcases hc.descends before b held after heq with hroot | ⟨before', d, above, between, -, hidom, -⟩
        · cases before with
          | nil => rfl
          | cons visit rest =>
            rcases hc.descends [] visit.1 visit.2 (rest ++ (b, held) :: after) heq with
              hfirst | ⟨_, _, _, _, hcons, -⟩
            · have hfst := (Prod.mk.inj (mem_singleton.mp hfirst)).1
              exact absurd (by simp [hne, hfst]) hnew
            · simp at hcons
        · exact absurd hne ((h.dom.idom_iff b d).mp hidom).2.1.ne_entry
      subst hnil
      rfl
    · exact hv.walked.insts_eq b hne

lemma Stage.visitedAll (h : Stage p entry doms slots homes placed)
    (hc : Covers (sceneOf slots placed doms) p entry { function := placed.function }
      [(entry, [])] visits) (before after : List (Block × Held)) (heq : visits = before ++ after) :
    VisitedAll p entry slots homes placed before (runVisits (sceneOf slots placed doms)
      before { function := placed.function }) := by
  induction before using List.reverseRecOn generalizing after with
  | nil =>
    refine ⟨h.walked_start, ⟨fun x => ?_, nodup_nil⟩, by simp, by simp⟩
    simp [runVisits]
  | append_singleton before visit ih =>
    obtain ⟨b, held⟩ := visit
    have heq' : visits = before ++ (b, held) :: after := by
      rw [heq]
      simp
    have hv := ih ((b, held) :: after) heq'
    obtain ⟨hnew, hstep⟩ := h.visitStep_at hc heq' hv
    rw [runVisits_append]
    exact hv.visit hnew hstep

lemma Stage.visits_grow (h : Stage p entry doms slots homes placed)
    (hc : Covers (sceneOf slots placed doms) p entry { function := placed.function }
      [(entry, [])] visits) (before between after : List (Block × Held))
    (heq : visits = before ++ between ++ after) :
    Grows (runVisits (sceneOf slots placed doms) before { function := placed.function })
      (runVisits (sceneOf slots placed doms) (before ++ between)
        { function := placed.function }) := by
  induction between using List.reverseRecOn generalizing after with
  | nil =>
    rw [append_nil]
    exact .refl _
  | append_singleton between visit ih =>
    have heq' : visits = before ++ between ++ visit :: after := by
      rw [heq]
      simp
    obtain ⟨-, hstep⟩ := h.visitStep_at hc heq' (h.visitedAll hc _ _ heq')
    rw [← append_assoc, runVisits_append]
    exact (ih (visit :: after) heq').trans hstep.grows

/-! ### What renaming finds out -/

/-- The value that stands for another one after renaming. -/
def repOf (walk : Renaming) (x : Value) : Value :=
  (walk.reads.lookup x).getD x

def holdAfter (slots : List Slot) (p : Function) (placed : Placed) (walk : Renaming) (held : Held)
    (insts : List Value) : Held :=
  insts.foldl (holdStep slots p placed.phis (repOf walk)) held

/-- What is known after renaming, in terms of what the slots hold at the start of each block. -/
structure Renamed (p : Function) (entry : Block) (doms : Dominators) (slots : List Slot)
    (homes : List (Slot × Block)) (placed : Placed) (walk : Renaming) (held : Block → Held) :
    Prop where
  walked : Walked p entry homes placed walk
  agrees : Agrees slots p walk.reads (repOf walk)
  keyed : ∀ x, x ∈ walk.reads.map Prod.fst ↔
    IsLoad slots p x ∧ ∃ d, Reached p entry d ∧ x ∈ p.insts d
  held_entry : held entry = []
  held_child : ∀ b d, doms.idom b = some d →
    held b = holdAfter slots p placed walk (held d) (placed.function.insts d)
  load_source : ∀ b, Reached p entry b → ∀ before v after s,
    placed.function.insts b = before ++ v :: after → access? slots p v = some (s, .load) →
      SourceOf walk.undefs s ((holdAfter slots p placed walk (held b) before).lookup s.address)
        (repOf walk v)
  arg_source : ∀ q t, Reached p entry q → Edge p q t → ∀ (i : Nat) (s : Slot),
    homes[i]? = some (s, t) → ∀ j : Nat, (p.preds t)[j]? = some q → ∃ w,
      (argsOf walk.function ⟨p.values.size + i⟩)[j]? = some w ∧ SourceOf walk.undefs s
        ((holdAfter slots p placed walk (held q) (placed.function.insts q)).lookup s.address) w

lemma Keyed.agrees {seen : List Block} (h : Keyed slots p walk seen []) :
    Agrees slots p walk.reads (repOf walk) := by
  refine ⟨fun e he => ?_, fun x hx => ?_⟩
  · rw [repOf, (lookup_eq_some_iff_mem h.nodup).mpr he, Option.getD_some]
  · have hnone : walk.reads.lookup x = none := by
      rw [lookup_eq_none_iff]
      intro e he
      rw [bne_iff_ne]
      rintro rfl
      exact hx ((h.mem_iff e.1).mp (mem_map.mpr ⟨e, he, rfl⟩)).1
    rw [repOf, hnone, Option.getD_none]

/-- What a block is visited with is what its immediate dominator was left with. -/
lemma Stage.held_of_parent (h : Stage p entry doms slots homes placed)
    (hc : Covers (sceneOf slots placed doms) p entry { function := placed.function }
      [(entry, [])] visits) {rep : Value → Value}
    (hrep : Agrees slots p (runVisits (sceneOf slots placed doms) visits
      { function := placed.function }).reads rep) {d : Block} {above : Held}
    (hb : (b, held) ∈ visits) (hd : (d, above) ∈ visits) (hidom : doms.idom b = some d) :
    held = (placed.function.insts d).foldl (holdStep slots p placed.phis rep) above := by
  obtain ⟨before, after, heq⟩ := append_of_mem hb
  rcases hc.descends before b held after heq with hroot | ⟨before', e, above', between, hbefore,
    hidom', hheld⟩
  · have hentry := (Prod.mk.inj (mem_singleton.mp hroot)).1
    exact absurd hentry ((h.dom.idom_iff b d).mp hidom).2.1.ne_entry
  · obtain rfl : d = e := Option.some.inj (hidom.symm.trans hidom')
    have hsplit : visits = before' ++ (d, above') :: (between ++ (b, held) :: after) := by
      rw [heq, hbefore]
      simp
    have habove : above = above' := by
      have hmem : (d, above') ∈ visits := hsplit ▸ mem_append_right _ mem_cons_self
      rw [← lookup_eq_some_iff_mem hc.nodup] at hd hmem
      exact Option.some.inj (hd.symm.trans hmem)
    subst habove
    obtain ⟨-, hstep⟩ := h.visitStep_at hc hsplit (h.visitedAll hc _ _ hsplit)
    rw [hheld]
    refine hstep.held_eq rep (hrep.mono ?_)
    have hgrow := (h.visits_grow hc (before' ++ [(d, above)]) (between ++ (b, held) :: after) []
      (by rw [hsplit]; simp)).reads
    rw [runVisits_append] at hgrow
    have hall : before' ++ [(d, above)] ++ (between ++ (b, held) :: after) = visits := by
      rw [hsplit]
      simp
    rwa [hall] at hgrow

/-- Renaming from the entry finds out what every load reads and what flows into every phi. -/
theorem Stage.renamed (h : Stage p entry doms slots homes placed) :
    ∃ held, Renamed p entry doms slots homes placed
      (renameTree (sceneOf slots placed doms) (doms.order.length + 1) []
        { function := placed.function } entry) held := by
  obtain ⟨visits, hrun, hc⟩ := @renameTree_visits (sceneOf slots placed doms) p entry
    h.pruned h.dom (doms.order.length + 1) [] { function := placed.function } entry .at_entry
    (by dsimp only [sceneOf]; omega)
  have hv := h.visitedAll hc visits [] (append_nil visits).symm
  rw [hrun]
  set walk := runVisits (sceneOf slots placed doms) visits { function := placed.function }
  have hagrees := hv.keyed.agrees
  have hvisited : ∀ b, Reached p entry b → ∃ held, (b, held) ∈ visits := by
    intro b hb
    have hmem := (hc.mem_iff b).mpr ⟨hb, _, mem_cons_self, .from_entry b⟩
    obtain ⟨⟨x, held⟩, hvisit, rfl⟩ := mem_map.mp hmem
    exact ⟨held, hvisit⟩
  have hlook : ∀ {b held}, (b, held) ∈ visits → (visits.lookup b).getD [] = held := by
    intro b held hmem
    rw [(lookup_eq_some_iff_mem hc.nodup).mpr hmem, Option.getD_some]
  refine ⟨fun b => (visits.lookup b).getD [], hv.walked, hagrees, fun x => ?_, ?_, fun b d hidom => ?_,
    fun b hb before v after s hsplit hacc => ?_, fun q t hq ht i s hget j hj => ?_⟩
  · rw [hv.keyed.mem_iff]
    simp only [not_mem_nil, false_or]
    refine and_congr_right fun _ => exists_congr fun d => and_congr_left fun _ => ?_
    rw [hc.mem_iff]
    exact ⟨And.left, fun hd => ⟨hd, _, mem_cons_self, .from_entry d⟩⟩
  · obtain ⟨held, hmem⟩ := hvisited entry .at_entry
    obtain ⟨before, after, heq⟩ := append_of_mem hmem
    rw [hlook hmem]
    rcases hc.descends before entry held after heq with hroot | ⟨_, d, _, _, -, hidom, -⟩
    · exact (Prod.mk.inj (mem_singleton.mp hroot)).2
    · exact absurd rfl ((h.dom.idom_iff entry d).mp hidom).2.1.ne_entry
  · obtain ⟨hb, hbd⟩ := (h.dom.idom_iff b d).mp hidom
    obtain ⟨held, hmem⟩ := hvisited b hb
    obtain ⟨above, hmem'⟩ := hvisited d (hbd.1.1.reachable hb)
    rw [hlook hmem, hlook hmem']
    exact h.held_of_parent hc hagrees hmem hmem' hidom
  · obtain ⟨held, hmem⟩ := hvisited b hb
    obtain ⟨w, hread, hsource⟩ := hv.known _ hagrees _ hmem before v after s hsplit hacc
    rw [hlook hmem, hagrees.read _ hread]
    exact hsource
  · obtain ⟨held, hmem⟩ := hvisited q hq
    rw [hlook hmem]
    exact hv.filled _ hagrees _ hmem t ht i s hget j hj

end

end SsaLowering.Proofs
