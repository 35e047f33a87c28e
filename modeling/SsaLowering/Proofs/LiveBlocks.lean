import SsaLowering.Proofs.Building
import SsaLowering.Proofs.WellFormed

/-!
# The marks of a builder

A builder may be used in any order. A block that it marks live can always be reached from the entry
through the edges emitted so far. The converse depends on the order: a mark does not go past a block
whose edges were emitted before the block was marked.
-/

namespace SsaLowering.Proofs

open Ir List
open Ir.Builder (firstBlock)

/-- A use of a builder. -/
inductive BuildStep where
  | createBlock (name : String)
  | switchTo (block : Block)
  | locateAt (span : Span) (node : Nat)
  | param (ty : Ty)
  | alloca (ty : Ty) (pinned : Bool)
  | phi (block : Block) (ty : Ty) (args : List Value)
  | append (inst : Inst)

namespace BuildStep

/-- The builder behind a step; a step fails at a missing block or behind a terminator. -/
def apply (b : Builder) : BuildStep → Except Fault Builder
  | createBlock name => .ok (b.createBlock name).2
  | switchTo block => .ok (b.switchTo block)
  | locateAt span node => .ok (b.locateAt span node)
  | param ty => .ok (b.param ty).2
  | alloca ty pinned => .ok (b.alloca ty pinned).2
  | phi block ty args => (b.phi block ty args).map Prod.snd
  | append inst => (b.append inst).map Prod.snd

/-- The targets of the edges that a step emits at the cursor. -/
def targets : BuildStep → List Block
  | append inst => inst.successors
  | _ => []

end BuildStep

/-- Some uses of a builder in a row. -/
def buildAll (b : Builder) (steps : List BuildStep) : Except Fault Builder :=
  steps.foldlM BuildStep.apply b

/-- Whether every block that gets its mark has no edges yet. -/
def marksInOrder (b : Builder) : List BuildStep → Bool
  | [] => true
  | step :: steps =>
    (!b.isReachable ||
      step.targets.all fun t => b.isLive t || (b.function.successors t).isEmpty) &&
    match step.apply b with
    | .ok b' => marksInOrder b' steps
    | .error _ => true

/-! ### Where edges come from -/

/-- What is placed exists, and the edges of the entry come from behind its head. -/
structure HeadFirst (b : Builder) : Prop extends b.Rooted where
  head_lt : b.function.successors firstBlock ≠ [] →
    b.entryHead < (b.function.insts firstBlock).length

/-- Edges to some targets have been emitted at the cursor, with their marks. -/
structure Emits (b : Builder) (targets : List Block) (b' : Builder) : Prop where
  successors_eq : ∀ p, b'.function.successors p =
    b.function.successors p ++ if p = b.current then targets else []
  live_eq : ∀ t, b'.isLive t = (b.isLive t || (decide (t ∈ targets) && b.isReachable))

/-- A new value was put into a block; other blocks and values are the same. -/
structure PutAt (b : Builder) (inst : Inst) (block : Block) (before after : List Value)
    (b' : Builder) : Prop where
  split : b.function.insts block = before ++ after
  insts_eq : ∀ t, b'.function.insts t =
    if t = block then before ++ b.next :: after else b.function.insts t
  value_eq : ∀ v, b'.function.value? v =
    if v = b.next then some ⟨inst, some block, b.span, b.node⟩ else b.function.value? v

section Steps

variable {b b' : Builder} {inst : Inst} {block : Block} {before after : List Value}

lemma next_ne (hb : b.Rooted) {v : Value} (hv : v ∈ b.function.insts block) : v ≠ b.next := by
  rintro rfl
  exact Nat.lt_irrefl _ (hb.known block _ hv)

namespace PutAt

lemma inst?_eq (h : PutAt b inst block before after b') (v : Value) :
    b'.function.inst? v = if v = b.next then some inst else b.function.inst? v := by
  simp only [Function.inst?, h.value_eq]
  split <;> rfl

lemma length_eq (h : PutAt b inst block before after b') (t : Block) :
    (b'.function.insts t).length = (b.function.insts t).length + if t = block then 1 else 0 := by
  rw [h.insts_eq]
  split
  next ht => simp [ht, h.split, Nat.add_assoc]
  next => rfl

/-- Only a value that comes last in its block can change the edges of the block. -/
lemma successors_eq (h : PutAt b inst block before after b') (hb : b.Rooted)
    (hlast : after = [] → b.function.successors block = []) (p : Block) : b'.function.successors p =
      b.function.successors p ++ if p = block ∧ after = [] then inst.successors else [] := by
  by_cases hp : p = block ∧ after = []
  · obtain ⟨rfl, rfl⟩ := hp
    rw [hlast rfl, if_pos ⟨rfl, rfl⟩, Function.successors_eq, h.insts_eq, if_pos rfl]
    simp [h.inst?_eq]
  · rw [if_neg hp, append_nil]
    have hkept : (b'.function.insts p).getLast? = (b.function.insts p).getLast? := by
      rw [h.insts_eq]
      split
      next hblock =>
        rw [hblock, h.split, append_cons,
          getLast?_append_of_ne_nil _ fun hnil => hp ⟨hblock, hnil⟩,
          getLast?_append_of_ne_nil _ fun hnil => hp ⟨hblock, hnil⟩]
      next => rfl
    refine Function.successors_congr hkept fun v hv => ?_
    rw [h.inst?_eq, if_neg (next_ne hb (mem_of_getLast? (hkept ▸ hv)))]

/-- The head of the entry may get longer by a value that has no edges. -/
lemma emits (h : PutAt b inst block before after b') (hb : HeadFirst b) (hb' : b'.Rooted)
    (hlast : after = [] → b.function.successors block = [])
    (hhead : b'.entryHead = b.entryHead ∨
      b'.entryHead = b.entryHead + 1 ∧ block = firstBlock ∧ inst.successors = [])
    (hcurrent : inst.successors = [] ∨ block = b.current ∧ after = [])
    (hlive : ∀ t, b'.isLive t = (b.isLive t || (decide (t ∈ inst.successors) && b.isReachable))) :
    HeadFirst b' ∧ Emits b inst.successors b' := by
  have hsucc := h.successors_eq hb.toRooted hlast
  refine ⟨⟨hb', fun hne => ?_⟩, fun p => ?_, hlive⟩
  · rw [h.length_eq]
    by_cases hold : b.function.successors firstBlock = []
    · rw [hsucc, hold, nil_append] at hne
      split at hne
      next hp =>
        rw [if_pos hp.1, hhead.resolve_right fun hlonger => hne hlonger.2.2]
        exact Nat.lt_succ_of_le hb.head_le
      next => exact absurd rfl hne
    · have hlt := hb.head_lt hold
      rcases hhead with hhead | ⟨hhead, rfl, -⟩
      · omega
      · rw [hhead, if_pos rfl]
        omega
  · rw [hsucc]
    rcases hcurrent with hnil | ⟨rfl, rfl⟩
    · simp [hnil]
    · simp

end PutAt

lemma putAt_head (h : b.HeadLonger inst b') :
    PutAt b inst firstBlock b.head (b.code firstBlock) b' where
  split := (b.insts_eq firstBlock).trans (by rw [if_pos rfl])
  insts_eq t := by
    rw [b'.insts_eq, b.insts_eq, h.head_eq, h.code_eq]
    split <;> simp [*]
  value_eq := h.value_eq

lemma putAt_phi (b : Builder) (hblock : block.id < b.function.blocks.size) (ty : Ty)
    (args : List Value) : PutAt b (.phi ty args) block (b.function.phis block)
      (b.function.afterPhis block)
      (b.place (.phi ty args) block (b.function.phis block).length).2 where
  split := (b.function.phis_append_afterPhis block).symm
  insts_eq t := by
    have hphis : b.function.phis block <+: b.function.insts block := List.takeWhile_prefix _
    rw [b.insts_place _ hblock]
    split
    next ht =>
      rw [ht, Builder.insertIdx_eq_append hphis.length_le, ← List.prefix_iff_eq_take.mp hphis,
        append_assoc]
      rfl
    next => rfl
  value_eq _ := b.value?_place ..

lemma putAt_end (h : b.Appended inst b') :
    PutAt b inst b.current (b.function.insts b.current) [] b' where
  split := (append_nil _).symm
  insts_eq t := by
    rw [b'.insts_eq, b.insts_eq t, h.head_eq, h.code_eq]
    by_cases ht : t = b.current
    · rw [if_pos ht, if_pos ht, ← append_assoc, ht, ← b.insts_eq]
    · rw [if_neg ht, if_neg ht]
  value_eq := h.value_eq

lemma successors_eq_nil_of_phis (h : b.function.afterPhis block = []) :
    b.function.successors block = [] := by
  have hall := b.function.phis_append_afterPhis block
  rw [h, append_nil] at hall
  rw [Function.successors_eq]
  cases hv : (b.function.insts block).getLast? with
  | none => rfl
  | some v =>
    have hphi := b.function.instIs_of_mem_phis (hall ▸ mem_of_getLast? hv)
    unfold Function.instIs at hphi
    cases hinst : b.function.inst? v with
    | none => simp [hinst]
    | some inst => cases inst <;> simp_all [Inst.isPhi, Inst.successors]

/-- Any use of a builder emits at most the edges of one terminator. -/
lemma BuildStep.apply_emits {step : BuildStep} (hb : HeadFirst b) (h : step.apply b = .ok b') :
    HeadFirst b' ∧ Emits b step.targets b' := by
  have hhead {inst : Inst} {b' : Builder} (h : b.HeadLonger inst b') (hinst : inst.successors = [])
      (hentry : b'.entryHead = b.entryHead + 1) : HeadFirst b' ∧ Emits b inst.successors b' := by
    refine (putAt_head h).emits hb h.rooted (fun hnil => ?_) (.inr ⟨hentry, rfl, hinst⟩) (.inl hinst)
      fun t => by simp [hinst, h.live_eq]
    by_contra hne
    rw [Builder.code, if_pos rfl, drop_eq_nil_iff] at hnil
    exact absurd (hb.head_lt hne) (Nat.not_lt.mpr hnil)
  cases step with
  | createBlock name =>
    cases h
    obtain ⟨-, hcreated⟩ := Builder.createBlock_created hb.toRooted name
    have hinsts (p : Block) :
        (b.createBlock name).2.function.insts p = b.function.insts p := by
      rw [Builder.insts_eq, Builder.insts_eq, hcreated.head_eq, hcreated.code_eq]
    have hsucc (p : Block) :
        (b.createBlock name).2.function.successors p = b.function.successors p :=
      Function.successors_congr (by rw [hinsts]) fun _ _ => rfl
    refine ⟨⟨hcreated.rooted, ?_⟩, fun p => ?_, fun t => by simp [targets, hcreated.live_eq]⟩
    · rw [hsucc, hinsts]
      exact hb.head_lt
    · simp [hsucc, targets]
  | switchTo block | locateAt span node =>
    cases h
    exact ⟨⟨⟨hb.layout_eq, hb.nonempty, hb.head_le, hb.known, hb.untagged⟩, hb.head_lt⟩,
      fun p => by simp [targets, Builder.switchTo, Builder.locateAt],
      fun t => by simp [targets, Builder.isLive, Builder.switchTo, Builder.locateAt]⟩
  | param ty =>
    cases h
    exact hhead (Builder.param_headLonger hb.toRooted ty).2.1 rfl rfl
  | alloca ty pinned =>
    cases h
    exact hhead (Builder.placeInEntry_headLonger hb.toRooted _).2.1 rfl rfl
  | phi block ty args =>
    rw [apply, Builder.phi] at h
    split at h
    · next hblock =>
      cases h
      have hblock : block.id < b.function.blocks.size := by simpa [Arena.holds] using hblock
      exact (putAt_phi b hblock ty args).emits hb (hb.toRooted.place _ hblock _)
        successors_eq_nil_of_phis (.inl rfl) (.inl rfl) fun t => (Bool.or_false _).symm
    · cases h
  | append inst =>
    cases hrun : b.append inst with
    | error fault => simp [apply, hrun, Except.map] at h
    | ok result =>
      obtain ⟨v, b1⟩ := result
      obtain rfl : b1 = b' := by simpa [apply, hrun, Except.map] using h
      obtain ⟨-, hopen, happended⟩ := Builder.appended_of_append hb.toRooted hrun
      refine (putAt_end happended).emits hb happended.rooted (fun _ => ?_) (.inl ?_) (.inr ⟨rfl, rfl⟩)
        happended.live_eq
      · rw [Builder.isTerminated, Option.isSome_eq_false_iff, Option.isNone_iff_eq_none] at hopen
        rw [Function.successors, hopen]
        rfl
      · have hlength := congrArg List.length happended.head_eq
        simpa [Builder.head, happended.rooted.head_le, hb.head_le] using hlength

end Steps

/-! ### Marks and paths -/

section Marks

variable {b b' : Builder} {targets : List Block}

/-- Edges only lead from a marked block to marked blocks. -/
def MarksClosed (b : Builder) : Prop :=
  ∀ p t, b.isLive p = true → t ∈ b.function.successors p → b.isLive t = true

lemma Emits.reached_mono (h : Emits b targets b') {t : Block}
    (ht : Reached b.function firstBlock t) : Reached b'.function firstBlock t := by
  refine Reachable.induction (.at_entry) (fun p t _ hedge ih => ih.step ?_) ht
  rw [Edge, h.successors_eq]
  exact mem_append_left _ hedge

/-- A new mark stands at the end of a new edge from a marked block. -/
lemma Emits.sound (h : Emits b targets b')
    (hb : ∀ t, b.isLive t = true → Reached b.function firstBlock t) (t : Block)
    (ht : b'.isLive t = true) : Reached b'.function firstBlock t := by
  rw [h.live_eq, Bool.or_eq_true, Bool.and_eq_true, decide_eq_true_eq] at ht
  rcases ht with ht | ⟨hmem, hreach⟩
  · exact h.reached_mono (hb t ht)
  · refine (h.reached_mono (hb b.current hreach)).step ?_
    rw [Edge, h.successors_eq, if_pos rfl]
    exact mem_append_right _ hmem

/-- The only edges that a new mark could not follow are those of a block that was ended early. -/
lemma Emits.closed (h : Emits b targets b') (hb : MarksClosed b)
    (horder : b.isReachable = true →
      ∀ t ∈ targets, b.isLive t = true ∨ b.function.successors t = []) : MarksClosed b' := by
  intro p t hp ht
  rw [h.live_eq, Bool.or_eq_true, Bool.and_eq_true, decide_eq_true_eq] at hp ⊢
  rw [h.successors_eq, mem_append] at ht
  rcases ht with ht | ht
  · rcases hp with hp | ⟨hmem, hreach⟩
    · exact .inl (hb p t hp ht)
    · rcases horder hreach p hmem with hlive | hnil
      · exact .inl (hb p t hlive ht)
      · rw [hnil] at ht
        cases ht
  · split at ht
    next hcurrent =>
      subst hcurrent
      exact .inr ⟨ht, hp.elim id And.right⟩
    next => cases ht

lemma reached_live (hb : MarksClosed b) (hfirst : b.isLive firstBlock = true) {t : Block}
    (ht : Reached b.function firstBlock t) : b.isLive t = true :=
  Reachable.induction (motive := fun t => b.isLive t = true) hfirst
    (fun p t _ hedge ih => hb p t ih hedge) ht

lemma buildAll_marks {steps : List BuildStep} (hb : HeadFirst b)
    (hsound : ∀ t, b.isLive t = true → Reached b.function firstBlock t)
    (hfirst : b.isLive firstBlock = true) (h : buildAll b steps = .ok b') :
    (∀ t, b'.isLive t = true → Reached b'.function firstBlock t) ∧
      (MarksClosed b → marksInOrder b steps = true →
        ∀ t, Reached b'.function firstBlock t → b'.isLive t = true) := by
  induction steps generalizing b with
  | nil =>
    cases h
    exact ⟨hsound, fun hclosed _ t => reached_live hclosed hfirst⟩
  | cons step steps ih =>
    cases hstep : step.apply b with
    | error fault => simp [buildAll, hstep, Bind.bind, Except.bind] at h
    | ok b1 =>
      have h1 : buildAll b1 steps = .ok b' := by
        simpa [buildAll, hstep, Bind.bind, Except.bind] using h
      obtain ⟨hb1, hemits⟩ := BuildStep.apply_emits hb hstep
      have hfirst1 : b1.isLive firstBlock = true := by simp [hemits.live_eq, hfirst]
      obtain ⟨hall, hexact⟩ := ih hb1 (hemits.sound hsound) hfirst1 h1
      refine ⟨hall, fun hclosed horder => ?_⟩
      simp only [marksInOrder, hstep, Bool.and_eq_true, Bool.or_eq_true, Bool.not_eq_true',
        List.all_eq_true, List.isEmpty_iff] at horder
      exact hexact (hemits.closed hclosed fun hreach => horder.1.resolve_left (by simp [hreach]))
        horder.2

/-- In any order of use, a marked block can be reached through the edges emitted so far. All blocks
that can be reached are marked, unless a block got its mark behind its edges. -/
theorem marked_blocks_are_reachable {name : String} {ret : Ty} {span : Span} {node : Nat}
    {steps : List BuildStep} {b : Builder}
    (h : buildAll (Builder.start name ret span node) steps = .ok b) :
    (∀ t, b.isLive t = true → Reached b.function firstBlock t) ∧
      (marksInOrder (Builder.start name ret span node) steps = true →
        ∀ t, b.isLive t = true ↔ Reached b.function firstBlock t) := by
  have hnil (p : Block) : (Builder.start name ret span node).function.successors p = [] := by
    simp [Function.successors_eq]
  have hlive (t : Block) : (Builder.start name ret span node).isLive t = true ↔
      t = firstBlock := by
    rw [Builder.isLive_start, decide_eq_true_eq]
  obtain ⟨hsound, hexact⟩ := buildAll_marks
    ⟨Builder.start_rooted name ret span node, fun hne => absurd (hnil _) hne⟩
    (fun t ht => (hlive t).1 ht ▸ .at_entry) ((hlive _).2 rfl) h
  have hclosed : MarksClosed (Builder.start name ret span node) := fun p t _ hedge => by
    rw [hnil] at hedge
    cases hedge
  exact ⟨hsound, fun horder t => ⟨hsound t, hexact hclosed horder t⟩⟩

lemma exists_of_map_eq_ok {α : Type} {run : Except Fault Builder} {view : Builder → α} {a : α}
    (h : run.map view = .ok a) : ∃ b, run = .ok b ∧ view b = a := by
  cases run with
  | error fault => cases h
  | ok b => exact ⟨b, rfl, Except.ok.inj h⟩

/-- A loop whose body is built first to last, with a slot and a block that nothing leads to. -/
def loopSteps : List BuildStep :=
  [.createBlock "loop", .createBlock "exit", .createBlock "dead", .append (.bconst true),
    .append (.br ⟨1⟩), .switchTo ⟨1⟩, .alloca .i1 false, .append (.condBr ⟨0⟩ ⟨1⟩ ⟨2⟩),
    .switchTo ⟨3⟩, .append (.br ⟨2⟩), .phi ⟨2⟩ .i1 [⟨0⟩, ⟨0⟩]]

/-- In the loop, exactly the dead block is unmarked, and nothing leads to it. -/
theorem loopSteps_marks : ∃ b, buildAll (Builder.start "f" .void .zero 0) loopSteps = .ok b ∧
    [0, 1, 2, 3].map (fun i => b.isLive ⟨i⟩) = [true, true, true, false] ∧
    ∀ t, b.isLive t = true ↔ Reached b.function firstBlock t := by
  have hrun : (buildAll (Builder.start "f" .void .zero 0) loopSteps).map
      (fun b => [0, 1, 2, 3].map fun i => b.isLive ⟨i⟩) = .ok [true, true, true, false] := by
    decide
  obtain ⟨b, hb, hlive⟩ := exists_of_map_eq_ok hrun
  exact ⟨b, hb, hlive, (marked_blocks_are_reachable hb).2 (by decide)⟩

/-- A block that is ended before control is sent to it. -/
def earlySteps : List BuildStep :=
  [.createBlock "b", .createBlock "c", .switchTo ⟨1⟩, .append (.br ⟨2⟩), .switchTo ⟨0⟩,
    .append (.br ⟨1⟩)]

/-- The mark does not go on to the block behind it, although a path does. -/
theorem earlySteps_unmarked : ∃ b, buildAll (Builder.start "f" .void .zero 0) earlySteps = .ok b ∧
    Reached b.function firstBlock ⟨2⟩ ∧ b.isLive ⟨2⟩ = false := by
  have hrun : (buildAll (Builder.start "f" .void .zero 0) earlySteps).map
      (fun b => (b.function.successors firstBlock, b.function.successors ⟨1⟩, b.isLive ⟨2⟩)) =
        .ok ([⟨1⟩], [⟨2⟩], false) := by
    decide
  obtain ⟨b, hb, heq⟩ := exists_of_map_eq_ok hrun
  simp only [Prod.mk.injEq] at heq
  refine ⟨b, hb, ?_, heq.2.2⟩
  have hfirst : Edge b.function firstBlock ⟨1⟩ := by simp [Edge, heq.1]
  have hsecond : Edge b.function ⟨1⟩ ⟨2⟩ := by simp [Edge, heq.2.1]
  exact (Reachable.at_entry.step hfirst).step hsecond

end Marks

end SsaLowering.Proofs
