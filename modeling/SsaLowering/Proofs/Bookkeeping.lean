import SsaLowering.Proofs.LiveBlocks

/-!
# The books of a builder

In any order of use that keeps parameters, slots and phis to their own operations, a builder places
each value once, in the block that the value records, and keeps the instructions of every block in
order, the recorded predecessors in the order of the edges, and the head of the entry apart.
-/

namespace SsaLowering.Proofs

open Ir List
open Ir.Builder (firstBlock)

namespace BuildStep

/-- Parameters and phis are made by their own operations, and there is no phi in the entry. -/
def isProper : BuildStep → Bool
  | append inst => !inst.isParam && !inst.isPhi
  | phi block _ _ => block ≠ firstBlock
  | _ => true

/-- The parameter or slot that a step makes. -/
def heads (b : Builder) : BuildStep → List Value
  | param _ | alloca _ _ => [b.next]
  | _ => []

/-- The edges that a step emits, with their sources. -/
def edges (b : Builder) (step : BuildStep) : List (Block × Block) :=
  step.targets.map fun t => (b.current, t)

end BuildStep

/-- What is noted at each step of a run, in order. -/
def notedBy {α : Type} (note : Builder → BuildStep → List α) (b : Builder) :
    List BuildStep → List α
  | [] => []
  | step :: steps =>
    note b step ++ match step.apply b with
      | .ok b' => notedBy note b' steps
      | .error _ => []

/-- Each value stands once, in the block that it records. In a block nothing follows a terminator,
and only phis stand before a phi. -/
structure Arranged (f : Function) : Prop where
  placed : ∀ v info, f.value? v = some info →
    ∃ home, info.block = some home ∧ ∀ t, (f.insts t).count v = if t = home then 1 else 0
  ordered : ∀ t, (f.insts t).Pairwise fun v w => f.instIs Inst.isTerminator v = false ∧
    (f.instIs Inst.isPhi w = true → f.instIs Inst.isPhi v = true)

/-- The books agree with the parameters and slots made and the edges emitted so far, in order: the
former are the head of the entry, and the latter give the predecessors of each block. -/
structure Bookkept (heads : List Value) (edges : List (Block × Block)) (b : Builder) : Prop
    extends HeadFirst b, Arranged b.function where
  head_eq : b.head = heads
  head_plain : ∀ v ∈ heads, b.function.instIs Inst.isTerminator v = false
  code_plain : ∀ v ∈ b.code firstBlock,
    b.function.instIs Inst.isParam v = false ∧ b.function.instIs Inst.isPhi v = false
  preds_eq : ∀ t, b.function.preds t = (edges.filter (·.2 = t)).map Prod.fst
  successors_eq : ∀ p, b.function.successors p = (edges.filter (·.1 = p)).map Prod.snd

section Steps

variable {b b' : Builder} {inst : Inst} {block : Block} {before after : List Value}

namespace PutAt

section

variable (h : PutAt b inst block before after b')
include h

lemma instIs_eq (kind : Inst → Bool) (v : Value) :
    b'.function.instIs kind v = if v = b.next then kind inst else b.function.instIs kind v := by
  rw [Function.instIs, h.inst?_eq]
  split <;> rfl

lemma instIs_old (hb : b.Rooted) (kind : Inst → Bool)
    (t : Block) (v : Value) (hv : v ∈ b.function.insts t) :
    b'.function.instIs kind v = b.function.instIs kind v := by
  rw [h.instIs_eq, if_neg (next_ne hb hv)]

lemma count_eq (t : Block) (v : Value) :
    (b'.function.insts t).count v =
      (b.function.insts t).count v + if t = block ∧ b.next = v then 1 else 0 := by
  rw [h.insts_eq]
  split
  next ht => simp [ht, h.split, count_cons, Nat.add_assoc]
  next ht => simp [ht]

lemma arranged (hb : b.Rooted) (hbooks : Arranged b.function)
    (hbefore : ∀ v ∈ before, b.function.instIs Inst.isTerminator v = false ∧
      (inst.isPhi = true → b.function.instIs Inst.isPhi v = true))
    (hafter : ∀ w ∈ after, inst.isTerminator = false ∧
      (b.function.instIs Inst.isPhi w = true → inst.isPhi = true)) : Arranged b'.function where
  placed v info hv := by
    rw [h.value_eq] at hv
    split at hv
    next hnext =>
      obtain rfl := Option.some.inj hv
      refine ⟨block, rfl, fun t => ?_⟩
      have hzero : (b.function.insts t).count b.next = 0 :=
        count_eq_zero.mpr fun hmem => next_ne hb hmem rfl
      simp [h.count_eq, hzero, hnext]
    next hnext =>
      obtain ⟨home, hhome, hcount⟩ := hbooks.placed v info hv
      exact ⟨home, hhome, fun t => by simp [h.count_eq, hcount, Ne.symm hnext]⟩
  ordered t := by
    have hkept := (hbooks.ordered t).imp_of_mem fun {v w} hv hw hvw => by
      rwa [← h.instIs_old hb _ t v hv, ← h.instIs_old hb _ t v hv, ← h.instIs_old hb _ t w hw] at hvw
    rw [h.insts_eq]
    split
    next ht =>
      subst ht
      rw [h.split, pairwise_append] at hkept
      obtain ⟨hfront, hback, hcross⟩ := hkept
      have hmem (v : Value) (hv : v ∈ before ∨ v ∈ after) : v ≠ b.next :=
        next_ne hb (h.split ▸ mem_append.mpr hv)
      refine pairwise_append.mpr ⟨hfront, pairwise_cons.mpr ⟨fun w hw => ?_, hback⟩,
        fun v hv w hw => ?_⟩
      · simpa only [h.instIs_eq, if_true, if_neg (hmem w (.inr hw))] using hafter w hw
      · rcases mem_cons.mp hw with rfl | hw
        · simpa only [h.instIs_eq, if_true, if_neg (hmem v (.inl hv))] using hbefore v hv
        · exact hcross v hv w hw
    next => exact hkept

end

end PutAt

lemma Arranged.open (h : Arranged b.function) (hopen : b.isTerminated = false) {v : Value}
    (hv : v ∈ b.function.insts b.current) : b.function.instIs Inst.isTerminator v = false := by
  obtain ⟨before, after, hsplit⟩ := append_of_mem hv
  have hordered := h.ordered b.current
  rw [hsplit, pairwise_append, pairwise_cons] at hordered
  cases after with
  | cons w after => exact (hordered.2.1.1 w mem_cons_self).1
  | nil =>
    by_contra hterm
    refine Bool.eq_false_iff.mp hopen (b.function.terminator?_isSome_iff.mpr ⟨v, ?_, ?_⟩)
    · simp [hsplit]
    · simpa using hterm

lemma map_filter_targets (source t : Block) (targets : List Block) :
    ((targets.map fun t => (source, t)).filter (·.2 = t)).map Prod.fst =
      List.replicate (targets.count t) source := by
  rw [filter_map, map_map, count_eq_length_filter]
  exact map_const' ..

/-- What a step changes, as far as the books are concerned. -/
structure Tracks (b : Builder) (step : BuildStep) (b' : Builder) : Prop where
  arranged : Arranged b'.function
  instIs_eq : ∀ kind block, ∀ v ∈ b.function.insts block,
    b'.function.instIs kind v = b.function.instIs kind v
  head_eq : b'.head = b.head ++ step.heads b
  head_plain : ∀ v ∈ step.heads b, b'.function.instIs Inst.isTerminator v = false
  code_plain : ∀ v ∈ b'.code firstBlock, v ∈ b.code firstBlock ∨
    b'.function.instIs Inst.isParam v = false ∧ b'.function.instIs Inst.isPhi v = false
  preds_eq : ∀ t, b'.function.preds t =
    b.function.preds t ++ List.replicate (step.targets.count t) b.current

variable {step : BuildStep} {heads : List Value} {edges : List (Block × Block)}

lemma Tracks.books (h : Tracks b step b') (hb : Bookkept heads edges b) (hb' : HeadFirst b')
    (hemits : Emits b step.targets b') :
    Bookkept (heads ++ step.heads b) (edges ++ step.edges b) b' where
  toHeadFirst := hb'
  toArranged := h.arranged
  head_eq := by rw [h.head_eq, hb.head_eq]
  head_plain := forall_mem_append.mpr ⟨fun v hv => by
    rw [h.instIs_eq _ firstBlock v (Builder.mem_insts_of_mem_head (hb.head_eq ▸ hv))]
    exact hb.head_plain v hv, h.head_plain⟩
  code_plain v hv := (h.code_plain v hv).elim (fun hold => by
    simp only [h.instIs_eq _ firstBlock v (Builder.mem_insts_of_mem_code hold)]
    exact hb.code_plain v hold) id
  preds_eq t := by
    rw [h.preds_eq, hb.preds_eq, filter_append, map_append, BuildStep.edges,
      map_filter_targets]
  successors_eq p := by
    rw [hemits.successors_eq, hb.successors_eq, filter_append, map_append,
      BuildStep.edges, filter_map, map_map]
    congr 1
    by_cases hp : p = b.current
    · simp [hp, Function.comp_def]
    · simp [hp, Ne.symm hp, Function.comp_def]

lemma BuildStep.apply_tracks (hb : Bookkept heads edges b) (hproper : step.isProper = true)
    (h : step.apply b = .ok b') : Tracks b step b' := by
  have hrooted := hb.toRooted
  -- a parameter or slot is put behind the others, where there is no phi
  have hhead {step : BuildStep} {inst : Inst} {b' : Builder} (h : b.HeadLonger inst b')
      (hinst : inst.isTerminator = false ∧ inst.isPhi = false) (hheads : step.heads b = [b.next])
      (htargets : step.targets = []) : Tracks b step b' :=
    { arranged := (putAt_head h).arranged hrooted hb.toArranged
        (fun v hv => ⟨hb.head_plain v (hb.head_eq ▸ hv), by simp [hinst.2]⟩)
        fun w hw => ⟨hinst.1, by simp [(hb.code_plain w hw).2]⟩
      instIs_eq := (putAt_head h).instIs_old hrooted
      head_eq := hheads ▸ h.head_eq
      head_plain := by simp [hheads, (putAt_head h).instIs_eq, hinst.1]
      code_plain := fun v hv => .inl (h.code_eq _ ▸ hv)
      preds_eq := fun t => by simp [h.preds_eq, htargets] }
  cases step with
  | createBlock name =>
    cases h
    obtain ⟨-, hcreated⟩ := Builder.createBlock_created hrooted name
    have hinsts (t : Block) : (b.createBlock name).2.function.insts t = b.function.insts t := by
      rw [Builder.insts_eq, b.insts_eq, hcreated.head_eq, hcreated.code_eq]
    exact
      { arranged := ⟨fun v info hv => by simpa only [hinsts] using hb.placed v info hv,
          fun t => by rw [hinsts]; exact hb.ordered t⟩
        instIs_eq := fun _ _ _ _ => rfl
        head_eq := hcreated.head_eq.trans (append_nil _).symm
        head_plain := forall_mem_nil _
        code_plain := fun v hv => .inl (hcreated.code_eq _ ▸ hv)
        preds_eq := fun t => (hcreated.preds_eq t).trans (append_nil _).symm }
  | switchTo block | locateAt span node =>
    cases h
    exact ⟨hb.toArranged, fun _ _ _ _ => rfl, (append_nil _).symm, forall_mem_nil _,
      fun _ hv => .inl hv, fun _ => (append_nil _).symm⟩
  | param ty =>
    cases h
    exact hhead (Builder.param_headLonger hrooted ty).2.1 ⟨rfl, rfl⟩ rfl rfl
  | alloca ty pinned =>
    cases h
    exact hhead (Builder.placeInEntry_headLonger hrooted _).2.1 ⟨rfl, rfl⟩ rfl rfl
  | phi block ty args =>
    rw [apply, Builder.phi] at h
    split at h
    · next hblock =>
      cases h
      have hne : block ≠ firstBlock := by simpa [isProper] using hproper
      have hput := putAt_phi b (by simpa [Arena.holds] using hblock) ty args
      have hfirst := (hput.insts_eq firstBlock).trans (if_neg hne.symm)
      refine ⟨hput.arranged hrooted hb.toArranged (fun v hv => ?_) fun _ _ => ⟨rfl, fun _ => rfl⟩,
        hput.instIs_old hrooted, ?_, forall_mem_nil _, fun v hv => .inl ?_,
        fun t => (b.preds_place ..).trans (append_nil _).symm⟩
      · have hphi := b.function.instIs_of_mem_phis hv
        refine ⟨b.function.instIs_eq_false hphi fun inst hinst => ?_, fun _ => hphi⟩
        cases inst <;> first | rfl | cases hinst
      · rw [Builder.head, hfirst]
        exact (append_nil _).symm
      · rw [Builder.code, hfirst] at hv
        exact hv
    · cases h
  | append inst =>
    cases hrun : b.append inst with
    | error fault => simp [apply, hrun, Except.map] at h
    | ok result =>
      obtain ⟨v, b1⟩ := result
      obtain rfl : b1 = b' := by simpa [apply, hrun, Except.map] using h
      obtain ⟨-, hopen, happended⟩ := Builder.appended_of_append hrooted hrun
      simp only [isProper, Bool.and_eq_true, Bool.not_eq_true'] at hproper
      have hput := putAt_end happended
      refine ⟨hput.arranged hrooted hb.toArranged (fun v hv => ⟨hb.open hopen hv, by simp [hproper.2]⟩)
        (by simp), hput.instIs_old hrooted, happended.head_eq.trans (append_nil _).symm,
        forall_mem_nil _, fun v hv => ?_, happended.preds_eq⟩
      rw [happended.code_eq] at hv
      split at hv
      · rcases mem_append.mp hv with hv | hv
        · exact .inl hv
        · simp [mem_singleton.mp hv, hput.instIs_eq, hproper]
      · exact .inl hv

lemma buildAll_books {steps : List BuildStep} (hb : Bookkept heads edges b)
    (hproper : ∀ step ∈ steps, step.isProper = true) (h : buildAll b steps = .ok b') :
    Bookkept (heads ++ notedBy BuildStep.heads b steps)
      (edges ++ notedBy BuildStep.edges b steps) b' := by
  induction steps generalizing b heads edges with
  | nil =>
    cases h
    simpa [notedBy] using hb
  | cons step steps ih =>
    obtain ⟨hfirst, hrest⟩ := forall_mem_cons.mp hproper
    cases hstep : step.apply b with
    | error fault => simp [buildAll, hstep, Bind.bind, Except.bind] at h
    | ok b1 =>
      have h1 : buildAll b1 steps = .ok b' := by
        simpa [buildAll, hstep, Bind.bind, Except.bind] using h
      obtain ⟨hb1, hemits⟩ := BuildStep.apply_emits hb.toHeadFirst hstep
      have hbooks := (BuildStep.apply_tracks hb hfirst hstep).books hb hb1 hemits
      simpa only [notedBy, hstep, append_assoc] using ih hbooks hrest h1

end Steps

/-- In any order of use, the books of a builder agree with the parameters and slots that were made
and the edges that were emitted. -/
theorem builder_keeps_its_books {name : String} {ret : Ty} {span : Span} {node : Nat}
    {steps : List BuildStep} {b : Builder} (hproper : ∀ step ∈ steps, step.isProper = true)
    (h : buildAll (Builder.start name ret span node) steps = .ok b) :
    Bookkept (notedBy BuildStep.heads (Builder.start name ret span node) steps)
      (notedBy BuildStep.edges (Builder.start name ret span node) steps) b := by
  have hstart : Bookkept [] [] (Builder.start name ret span node) :=
    { Builder.start_rooted name ret span node with
      head_lt := fun h => absurd (by simp [Function.successors_eq]) h
      placed := fun _ _ hv => by cases hv
      ordered := by simp
      head_eq := by simp [Builder.head]
      head_plain := forall_mem_nil _
      code_plain := by simp
      preds_eq := by simp
      successors_eq := by simp [Function.successors_eq] }
  exact buildAll_books hstart hproper h

/-- A parameter, a slot and a phi come last, when their blocks have been ended. -/
def lateSteps : List BuildStep :=
  [.createBlock "loop", .append (.bconst true), .append (.br ⟨1⟩), .param .i64, .switchTo ⟨1⟩,
    .append (.condBr ⟨0⟩ ⟨1⟩ ⟨1⟩), .alloca .i1 false, .phi ⟨1⟩ .i64 [⟨2⟩, ⟨2⟩, ⟨2⟩]]

theorem lateSteps_books : ∃ b, buildAll (Builder.start "f" .void .zero 0) lateSteps = .ok b ∧
    b.function.insts ⟨0⟩ = [⟨2⟩, ⟨4⟩, ⟨0⟩, ⟨1⟩] ∧ b.function.insts ⟨1⟩ = [⟨5⟩, ⟨3⟩] ∧
    Bookkept [⟨2⟩, ⟨4⟩] [(⟨0⟩, ⟨1⟩), (⟨1⟩, ⟨1⟩), (⟨1⟩, ⟨1⟩)] b := by
  have hrun : (buildAll (Builder.start "f" .void .zero 0) lateSteps).map
      (fun b => (b.function.insts ⟨0⟩, b.function.insts ⟨1⟩)) =
        .ok ([⟨2⟩, ⟨4⟩, ⟨0⟩, ⟨1⟩], [⟨5⟩, ⟨3⟩]) := by
    decide
  obtain ⟨b, hb, hinsts⟩ := exists_of_map_eq_ok hrun
  simp only [Prod.mk.injEq] at hinsts
  exact ⟨b, hb, hinsts.1, hinsts.2, builder_keeps_its_books (by decide) hb⟩

end SsaLowering.Proofs
