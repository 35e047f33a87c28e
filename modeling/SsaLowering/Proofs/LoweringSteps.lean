import SsaLowering.Lowering.Branches
import SsaLowering.Proofs.SelectionRules
import SsaLowering.Proofs.TypedCode
import SsaLowering.Proofs.TypingRules

/-!
# Steps of lowering

A step of lowering that starts at an open block, with all that is visible available there, ends at
such a block again or in an error that the body has caused; the engine itself does not stop. What is
said of a step covers the code that it makes, the blocks that it marks as reached, the answers that
it gets on the way and the types of its values.
-/

namespace SsaLowering.Proofs

open Ir Lowering
open SsaLowering.Core (Local Pattern)
open Ir.Builder (firstBlock Appended Created HeadLonger Joined)

/-! ### What is known of a body -/

/-- A body and what is known of it: it may keep to the rules under which lowering finds what it needs,
and its types may agree. -/
structure Setting where
  ctx : Context
  decls : Decls
  strict : Bool
  sound : Prop
  typed : Prop
  decls_eq : decls.decls = ctx.body.locals
  faithful : sound ∨ typed → Faithful ctx.env

namespace Setting

variable (K : Setting)

def Known : Prop :=
  K.sound ∨ K.typed

def rules : Rules where
  always site := K.sound → Selected K.ctx.env K.ctx.body.ret K.strict site
  reached site := (K.sound → Delivered K.ctx.env site) ∧
    (K.typed → Consistent K.ctx.env K.ctx.body.ret site)

/-- Something holds of a place in the body, if anything is known of the body at all. -/
def Keeps (live : Bool) (site : Site) : Prop :=
  K.Known → K.rules.Hold live site

/-- Errors that the body has caused. If it keeps to the rules, the one thing that can go wrong is a
pattern that may fail: its scrutinee is asked for even where control does not get to. -/
def Allows : LowerError → Prop
  | .internal error => K.sound → K.strict = false ∧ error.cause = .refutableOnValueless
  | _ => False

variable {K} {live : Bool} {site : Site}

lemma Keeps.selected (h : K.Keeps live site) (hs : K.sound) :
    Selected K.ctx.env K.ctx.body.ret K.strict site :=
  (h (.inl hs)).1 hs

lemma Keeps.delivered (h : K.Keeps live site) (hs : K.sound) (hlive : live = true) :
    Delivered K.ctx.env site :=
  ((h (.inl hs)).2 hlive).1 hs

lemma Keeps.consistent (h : K.Keeps live site) (ht : K.typed) (hlive : live = true) :
    Consistent K.ctx.env K.ctx.body.ret site :=
  ((h (.inr ht)).2 hlive).2 ht

end Setting

/-! ### How steps end -/

/-- How a step ends, if not in an error that the body has caused. -/
def Ends {α : Type} (K : Setting) (x : LowerM α) (s : LowerState) (Q : α → LowerState → Prop) :
    Prop :=
  match x s with
  | .ok a s' => Q a s'
  | .error e _ => K.Allows e

variable {K : Setting} {b' b : Builder} {inst : Inst} {value subject : Option Value} {record : Value}

namespace Ends

variable {α β : Type} {x : LowerM α} {f : α → LowerM β} {s s' : LowerState}
  {Q Q' : α → LowerState → Prop} {R : β → LowerState → Prop}

lemma pure {a : α} (h : Q a s) : Ends K (Pure.pure a) s Q :=
  h

lemma bind (h : Ends K x s Q) (hf : ∀ a s', Q a s' → Ends K (f a) s' R) : Ends K (x >>= f) s R := by
  unfold Ends at h ⊢
  simp only [Bind.bind, EStateM.bind]
  cases hx : x s with
  | ok a s' =>
    rw [hx] at h
    exact hf a s' h
  | error e s' =>
    rw [hx] at h
    exact h

lemma mono (h : Ends K x s Q) (hQ : ∀ a s', Q a s' → Q' a s') : Ends K x s Q' := by
  unfold Ends at h ⊢
  cases hx : x s with
  | ok a s' =>
    rw [hx] at h
    exact hQ a s' h
  | error e s' =>
    rw [hx] at h
    exact h

lemma map {g : α → β} (h : Ends K x s fun a s' => R (g a) s') : Ends K (g <$> x) s R := by
  unfold Ends at h ⊢
  simp only [Functor.map, EStateM.map]
  cases hx : x s with
  | ok a s' =>
    rw [hx] at h
    exact h
  | error e s' =>
    rw [hx] at h
    exact h

lemma get_bind {g : LowerState → LowerM α} (h : Ends K (g s) s Q) : Ends K (get >>= g) s Q :=
  h

lemma inconsistent {span : Span} {cause : Inconsistency} (h : ¬ K.sound) :
    Ends K (Lowering.inconsistent span cause) s Q :=
  fun hsound => absurd hsound h

lemma tryBuild {step : Builder → Except Fault (α × Builder)} {a : α}
    (hstep : step s.builder = .ok (a, b')) (h : Q a { s with builder := b' }) :
    Ends K (Lowering.tryBuild step) s Q := by
  have hrun : Lowering.tryBuild step s = .ok a { s with builder := b' } := by
    simp only [Lowering.tryBuild, Bind.bind, EStateM.bind, get, getThe, MonadStateOf.get,
      EStateM.get, hstep]
    rfl
  rw [Ends, hrun]
  exact h

lemma and (h : Ends K x s Q) (h' : Ends K x s Q') : Ends K x s fun a s' => Q a s' ∧ Q' a s' := by
  unfold Ends at h h' ⊢
  cases hx : x s with
  | ok a s' =>
    rw [hx] at h h'
    exact ⟨h, h'⟩
  | error e s' =>
    rw [hx] at h
    exact h

lemma of_ok {a : α} (h : Ends K x s Q) (hrun : x s = .ok a s') : Q a s' := by
  rwa [Ends, hrun] at h

end Ends

/-! ### Scopes -/

/-- Some locals were bound in the innermost scope, and others may have been hidden. -/
structure Adds (added : List Local) (sc sc' : ScopeStack) : Prop where
  frames_eq : sc'.frames = match sc.frames with
    | [] => []
    | frame :: frames => (added ++ frame) :: frames
  lookup : ∀ var, var ∈ added ∨ sc'.lookup var = sc.lookup var ∨ sc'.lookup var = none

namespace Adds

variable {sc sc' sc'' : ScopeStack} {added added' : List Local}

lemma refl (sc : ScopeStack) : Adds [] sc sc := by
  refine ⟨?_, fun var => .inr (.inl rfl)⟩
  cases sc.frames <;> rfl

lemma trans (h : Adds added sc sc') (h' : Adds added' sc' sc'') :
    Adds (added' ++ added) sc sc'' := by
  refine ⟨?_, fun var => ?_⟩
  · rw [h'.frames_eq, h.frames_eq]
    cases sc.frames with
    | nil => rfl
    | cons frame frames => simp only [List.append_assoc]
  · rcases h'.lookup var with hmem | heq | hnone
    · exact .inl (List.mem_append_left _ hmem)
    · rw [heq]
      exact (h.lookup var).imp_left (List.mem_append_right _)
    · exact .inr (.inr hnone)

lemma lookup_bind (sc : ScopeStack) (var : Local) (binding : Binding) (other : Local) :
    (sc.bind var binding).lookup other = if other = var then some binding else sc.lookup other := by
  have hid : other.id = var.id ↔ other = var := by
    cases other
    cases var
    simp
  simp [ScopeStack.lookup, ScopeStack.bind, SideTable.get_set, hid]

lemma bind (sc : ScopeStack) (var : Local) (binding : Binding) :
    Adds [var] sc (sc.bind var binding) := by
  refine ⟨?_, fun other => ?_⟩
  · unfold ScopeStack.bind
    cases sc.frames <;> rfl
  · rw [lookup_bind, List.mem_singleton]
    by_cases heq : other = var
    · exact .inl heq
    · exact .inr (.inl (if_neg heq))

lemma lookup_pop {frame : List Local} (table : SideTable (Option Binding)) (var : Local) :
    (frame.foldl (fun table other => table.set other.id none) table).get var.id =
      if var ∈ frame then none else table.get var.id := by
  induction frame generalizing table with
  | nil => rfl
  | cons other frame ih =>
    rw [List.foldl_cons, ih, SideTable.get_set]
    have hid : var.id = other.id ↔ var = other := by
      cases var
      cases other
      simp
    by_cases hmem : var ∈ frame
    · simp [hmem]
    · by_cases heq : var = other <;> simp [hmem, heq, hid]

lemma lookup_leave (h : Adds added sc.push sc') (var : Local) :
    sc'.pop.lookup var = if var ∈ added then none else sc'.lookup var := by
  have hframes : sc'.frames = (added ++ []) :: sc.frames := h.frames_eq
  rw [ScopeStack.pop, hframes, List.append_nil]
  exact lookup_pop _ _

lemma pop (h : Adds added sc.push sc') : Adds [] sc sc'.pop := by
  have hframes : sc'.frames = (added ++ []) :: sc.frames := h.frames_eq
  refine ⟨?_, fun var => ?_⟩
  · rw [ScopeStack.pop, hframes]
    cases sc.frames <;> rfl
  · rw [h.lookup_leave]
    by_cases hmem : var ∈ added
    · exact .inr (.inr (if_pos hmem))
    · rw [if_neg hmem]
      exact .inr ((h.lookup var).resolve_left hmem)

lemma lookup_eq (h : Adds [] sc sc') {var : Local} {binding : Binding}
    (hlookup : sc'.lookup var = some binding) : sc.lookup var = some binding := by
  rcases h.lookup var with hmem | heq | hnone
  · cases hmem
  · exact heq ▸ hlookup
  · rw [hnone] at hlookup
    cases hlookup

lemma lookup_of_pop {var : Local} {binding : Binding} (h : sc.pop.lookup var = some binding) :
    sc.lookup var = some binding := by
  unfold ScopeStack.pop at h
  split at h
  · exact h
  · simp only [ScopeStack.lookup, lookup_pop] at h
    split at h
    · cases h
    · exact h

end Adds

/-! ### Answers -/

/-- Whatever marks have been asked for since an earlier state, the answers are of some kind. -/
def Asks (s s' : LowerState) (right : Block → Bool → Prop) : Prop :=
  ∃ new, s'.notes = new ++ s.notes ∧ ∀ t answer, .asked t answer ∈ new → right t answer

variable {s0 s s' s'' : LowerState} {t : Block}

namespace Asks

variable {right other : Block → Bool → Prop}

lemma of_eq (h : s'.notes = s.notes) : Asks s s' right :=
  ⟨[], h, by simp⟩

lemma mono (h : Asks s s' right) (himp : ∀ t answer, right t answer → other t answer) :
    Asks s s' other := by
  obtain ⟨new, hnotes, hnew⟩ := h
  exact ⟨new, hnotes, fun t answer hmem => himp t answer (hnew t answer hmem)⟩

lemma trans (h : Asks s s' right) (h' : Asks s' s'' right) : Asks s s'' right := by
  obtain ⟨new, hnotes, hnew⟩ := h
  obtain ⟨more, hnotes', hmore⟩ := h'
  refine ⟨more ++ new, by rw [hnotes', hnotes, List.append_assoc], fun t answer hmem => ?_⟩
  rcases List.mem_append.mp hmem with hmem | hmem
  · exact hmore t answer hmem
  · exact hnew t answer hmem

end Asks

/-- The answers since an earlier state are still right. What was found dead is new, or control did
not get to the cursor of the earlier state. -/
def Told (s s' : LowerState) : Prop :=
  Asks s s' fun t answer => t.id < s'.builder.function.blocks.size ∧
    s'.builder.isLive t = answer ∧ (answer = false → s.builder.function.blocks.size ≤ t.id ∨
      t = s.builder.current ∧ s.builder.isReachable = false)

/-- A block has not been found dead since an earlier state. -/
def Spared (s s' : LowerState) (t : Block) : Prop :=
  Asks s s' fun u answer => u = t → answer = true

/-- Blocks that are marked later have not been found dead before. -/
lemma Told.trans (h : Told s0 s) (h' : Told s s') {marks : Block → Bool}
    (hsize0 : s0.builder.function.blocks.size ≤ s.builder.function.blocks.size)
    (hsize : s.builder.function.blocks.size ≤ s'.builder.function.blocks.size)
    (hlive : ∀ t, t.id < s.builder.function.blocks.size →
      s'.builder.isLive t = (s.builder.isLive t || s.builder.isReachable && marks t))
    (hplace : Inside s0.builder s.builder.current)
    (hmono : ∀ t, s0.builder.isLive t = true → s.builder.isLive t = true)
    (hreach : s.builder.isReachable = true → s0.builder.isReachable = true)
    (hmarks : ∀ t, s.builder.isReachable = true → marks t = true →
      s0.builder.function.blocks.size ≤ t.id → s.builder.isLive t = true ∨ Spared s0 s t) :
    Told s0 s' := by
  refine Asks.trans ?_ (h'.mono fun t answer hnew => ?_)
  · obtain ⟨new, hnotes, hnew⟩ := h
    refine ⟨new, hnotes, fun t answer hmem => ?_⟩
    obtain ⟨hlt, hanswer, hdead⟩ := hnew t answer hmem
    refine ⟨hlt.trans_le hsize, ?_, hdead⟩
    rw [hlive t hlt, hanswer]
    cases answer with
    | true => rfl
    | false =>
      by_contra hmarked
      rw [Bool.false_or, Bool.not_eq_false, Bool.and_eq_true] at hmarked
      rcases hdead rfl with hge | ⟨-, hunreached⟩
      · rcases hmarks t hmarked.1 hmarked.2 hge with hlive' | ⟨new', hnotes', hspared⟩
        · rw [hanswer] at hlive'
          cases hlive'
        · obtain rfl := List.append_cancel_right (hnotes.symm.trans hnotes')
          cases hspared t false hmem rfl
      · rw [hreach hmarked.1] at hunreached
        cases hunreached
  · obtain ⟨hlt, hanswer, hdead⟩ := hnew
    refine ⟨hlt, hanswer, fun hfalse => ?_⟩
    rcases hdead hfalse with hge | ⟨rfl, hunreached⟩
    · exact .inl (hsize0.trans hge)
    · refine hplace.symm.imp_right fun hcurrent => ⟨hcurrent, ?_⟩
      by_contra hlive0
      have hlive' := hmono _ (Bool.eq_true_of_not_eq_false hlive0)
      rw [← hcurrent] at hlive'
      rw [Builder.isReachable, hlive'] at hunreached
      cases hunreached

/-! ### Where lowering stands -/

/-- A value is at hand, of some type if control gets to the cursor. -/
structure Operand (K : Setting) (ty : Ty) (A : Avail) (s : LowerState) (v : Value) : Prop where
  atHand : AtHand A s.builder v
  hasTy : K.typed → s.builder.isReachable = true → HasTy s.builder.function v ty

/-- What code of some type is lowered to. If control gets to the cursor, a value is missing only if
the type has none. -/
structure Gives (K : Setting) (ty : Ty) (A : Avail) (s : LowerState) (result : Option Value) :
    Prop where
  operand : ∀ v ∈ result, Operand K ty A s v
  missing : K.Known → s.builder.isReachable = true → result = none → ty = .void

/-- What a binding holds is at hand: a value, or a slot at the head of the entry. -/
def HeldAt (K : Setting) (A : Avail) (s : LowerState) (var : Local) : Binding → Prop
  | .value v => Operand K (K.ctx.env.ty (K.ctx.localType var)) A s v ∧
    (K.sound → K.decls.fixed var = true)
  | .slot address ty => address ∈ s.builder.head ∧ ty = K.ctx.env.ty (K.ctx.localType var) ∧
    ∃ pinned, s.builder.function.inst? address = some (.alloca ty pinned)
  | .unit => K.ctx.env.ty (K.ctx.localType var) = .void

/-- Lowering can go on at the cursor. -/
structure Ready (K : Setting) (A : Avail) (s : LowerState) : Prop where
  coherent : Coherent A s.builder
  isOpen : Open s.builder s.builder.current
  loops : ∀ l ∈ s.loops, Target A s.builder l.exit ∧ Target A s.builder l.next
  bindings : ∀ var binding, s.scopes.lookup var = some binding → HeldAt K A s var binding
  typed : K.typed → Typed K.ctx s.builder

/-- What a piece of code does to the marks and the scopes: whether control gets to the cursor behind
it, which blocks it marks on the way, and whether it binds locals. -/
structure Way where
  behind : Bool
  marks : Block → Bool
  binds : Bool

namespace Way

def andThen (w w' : Way) : Way :=
  ⟨w.behind && w'.behind, fun t => w.marks t || w.behind && w'.marks t, w.binds || w'.binds⟩

end Way

/-- What is known of a piece of code before it is lowered. -/
structure Course where
  flow : Flow
  binds : Bool := false

namespace Course

def pass : Course :=
  ⟨.pass, false⟩

def andThen (c d : Course) : Course :=
  ⟨c.flow.andThen d.flow, c.binds || d.binds⟩

def way (c : Course) (loops : List LoopTargets) : Way :=
  ⟨c.flow.behind, c.flow.leadsTo loops, c.binds⟩

lemma way_andThen (c d : Course) (loops : List LoopTargets) :
    (c.andThen d).way loops = (c.way loops).andThen (d.way loops) := by
  simp [way, andThen, Way.andThen, funext_iff]

end Course

/-- Code has been put at the cursor of an earlier state; `P` are the blocks of it that have not been
ended. -/
structure Staged (K : Setting) (A0 : Avail) (s0 : LowerState) (A : Avail) (s : LowerState)
    (P : Set Block) (w : Way) : Prop extends Underway A0 s0.builder A s.builder P where
  place : Inside s0.builder s.builder.current
  loops_eq : s.loops = s0.loops
  live_eq : ∀ t, t.id < s0.builder.function.blocks.size →
    s.builder.isLive t = (s0.builder.isLive t || s0.builder.isReachable && w.marks t)
  reach_eq : s.builder.isReachable = (s0.builder.isReachable && w.behind)
  told : Told s0 s
  scopes : ∃ added, Adds added s0.scopes s.scopes ∧ (w.binds = false → added = [])
  typed : K.typed → Typed K.ctx s.builder

/-- Control has come from the cursor of an earlier state to the cursor. -/
structure Lowers (K : Setting) (A0 : Avail) (s0 : LowerState) (A : Avail) (s : LowerState) (w : Way) :
    Prop extends Staged K A0 s0 A s {s.builder.current} w where
  isOpen : Open s.builder s.builder.current
  avail : ∀ v, AtHand A0 s0.builder v → AtHand A s.builder v

/-- A step puts a piece of code at the cursor, with a result of some kind. -/
def Completes {α : Type} (K : Setting) (c : Course) (A : Avail) (s : LowerState) (x : LowerM α)
    (good : Avail → LowerState → α → Prop) : Prop :=
  Ends K x s fun a s' => ∃ A', Lowers K A s A' s' (c.way s.loops) ∧ Ready K A' s' ∧ good A' s' a

variable {A0 A A' A'' : Avail} {P Q : Set Block} {w w' : Way} {c d : Course} {ty : Ty} {v : Value}
  {var : Local} {binding : Binding}

/-! ### Composing steps -/

lemma Operand.of_builder (h : Operand K ty A s v) (hb : s'.builder = s.builder) :
    Operand K ty A s' v :=
  ⟨hb ▸ h.atHand, hb ▸ h.hasTy⟩

lemma Gives.of_builder (h : Gives K ty A s value) (hb : s'.builder = s.builder) :
    Gives K ty A s' value :=
  ⟨fun v hv => (h.operand v hv).of_builder hb, hb ▸ h.missing⟩

lemma HeldAt.of_builder (h : HeldAt K A s var binding) (hb : s'.builder = s.builder) :
    HeldAt K A s' var binding := by
  cases binding with
  | value v => exact ⟨h.1.of_builder hb, h.2⟩
  | slot address ty =>
    change address ∈ s'.builder.head ∧ _
    rw [hb]
    exact h
  | unit => exact h

namespace Staged

lemma mono (h : Staged K A0 s0 A s P w) (hPQ : P ⊆ Q) : Staged K A0 s0 A s Q w :=
  { h with toUnderway := h.toUnderway.mono hPQ }

/-- Only marks on blocks that were there before count. -/
lemma congr (h : Staged K A0 s0 A s P w)
    (hbehind : s0.builder.isReachable = true → w.behind = w'.behind)
    (hmarks : ∀ t, t.id < s0.builder.function.blocks.size → w.marks t = w'.marks t)
    (hbinds : w'.binds = false → w.binds = false) : Staged K A0 s0 A s P w' where
  toUnderway := h.toUnderway
  place := h.place
  loops_eq := h.loops_eq
  live_eq t ht := hmarks t ht ▸ h.live_eq t ht
  reach_eq := by
    rw [h.reach_eq]
    cases hreach : s0.builder.isReachable with
    | false => rfl
    | true => rw [hbehind hreach]
  told := h.told
  scopes := by
    obtain ⟨added, hadds, hnone⟩ := h.scopes
    exact ⟨added, hadds, fun hfalse => hnone (hbinds hfalse)⟩
  typed := h.typed

lemma reach (h : Staged K A0 s0 A s P w) (hreach : s.builder.isReachable = true) :
    s0.builder.isReachable = true := by
  rw [h.reach_eq, Bool.and_eq_true] at hreach
  exact hreach.1

lemma reach_pass {loops : List LoopTargets} (h : Staged K A0 s0 A s P (Course.pass.way loops)) :
    s.builder.isReachable = s0.builder.isReachable :=
  h.reach_eq.trans (Bool.and_true _)

lemma trans (h0 : Coherent A0 s0.builder) (h : Staged K A0 s0 A s P w)
    (h' : Staged K A s A' s' Q w')
    (hmarks : ∀ t, s.builder.isReachable = true → w'.marks t = true →
      s0.builder.function.blocks.size ≤ t.id → s.builder.isLive t = true ∨ Spared s0 s t) :
    Staged K A0 s0 A' s' (P \ {s.builder.current} ∪ Q) (w.andThen w') where
  toUnderway := h.toUnderway.trans h0 h.place h'.toUnderway
  place := .trans h.toGrown h.place h'.place
  loops_eq := h'.loops_eq.trans h.loops_eq
  live_eq t ht := by
    rw [h'.live_eq t (ht.trans_le h.extended.blocks_le), h.live_eq t ht, h.reach_eq, Way.andThen,
      Bool.or_assoc, Bool.and_assoc, ← Bool.and_or_distrib_left]
  reach_eq := by rw [h'.reach_eq, h.reach_eq, Way.andThen, Bool.and_assoc]
  told := h.told.trans h'.told h.extended.blocks_le h'.extended.blocks_le h'.live_eq h.place
    h.live_mono h.reach hmarks
  scopes := by
    obtain ⟨added, hadds, hnone⟩ := h.scopes
    obtain ⟨added', hadds', hnone'⟩ := h'.scopes
    refine ⟨added' ++ added, hadds.trans hadds', fun hfalse => ?_⟩
    rw [Way.andThen, Bool.or_eq_false_iff] at hfalse
    rw [hnone hfalse.1, hnone' hfalse.2, List.append_nil]
  typed := h'.typed

lemma trans_pass (h0 : Coherent A0 s0.builder) (h : Staged K A0 s0 A s P w)
    (h' : Staged K A s A' s' Q (Course.pass.way s.loops)) :
    Staged K A0 s0 A' s' (P \ {s.builder.current} ∪ Q) w :=
  (h.trans h0 h' (by simp [Course.way, Course.pass])).congr (by simp [Way.andThen, Course.way,
    Course.pass]) (by simp [Way.andThen, Course.way, Course.pass]) (by simp [Way.andThen, Course.way,
    Course.pass])

lemma operand (h : Staged K A0 s0 A s P w)
    (havail : ∀ v, AtHand A0 s0.builder v → AtHand A s.builder v)
    (hv : Operand K ty A0 s0 v) : Operand K ty A s v :=
  ⟨havail v hv.atHand, fun ht hr => h.extended.hasTy (hv.hasTy ht (h.reach hr))⟩

lemma heldAt (h : Staged K A0 s0 A s P w)
    (havail : ∀ v, AtHand A0 s0.builder v → AtHand A s.builder v)
    (hheld : HeldAt K A0 s0 var binding) : HeldAt K A s var binding := by
  cases binding with
  | value v => exact ⟨h.operand havail hheld.1, hheld.2⟩
  | slot address ty =>
    obtain ⟨hmem, hty, pinned, hinst⟩ := hheld
    exact ⟨h.extended.head_le.subset hmem, hty, pinned, h.extended.inst?_kept hinst⟩
  | unit => exact hheld

lemma ready (h0 : Ready K A0 s0) (h : Staged K A0 s0 A s P w)
    (hopen : Open s.builder s.builder.current)
    (havail : ∀ v, AtHand A0 s0.builder v → AtHand A s.builder v)
    (hbindings : ∀ var binding, s.scopes.lookup var = some binding →
      s0.scopes.lookup var = some binding ∨ HeldAt K A s var binding) :
    Ready K A s where
  coherent := h.toCoherent
  isOpen := hopen
  loops l hl := by
    rw [h.loops_eq] at hl
    have hkept {t : Block} (ht : Target A0 s0.builder t) : Target A s.builder t := by
      have hlt := ht.exists_block.trans_le h.extended.blocks_le
      refine ⟨ht.ne_first, hlt, fun v hv => ?_, fun v hv => ?_, fun hcode hlive => ?_⟩
      · by_contra hphi
        have hphi := Bool.eq_true_of_not_eq_false hphi
        have hv' := h.phis_kept t ht.exists_block v hv hphi
        rw [h.extended.instIs_eq (h0.coherent.formed.lt_of_mem_code hv'),
          ht.no_phi v hv'] at hphi
        cases hphi
      · rw [h.extended.avail_eq t ht.exists_block] at hv
        exact havail v (ht.avail v hv)
      · -- a live cursor comes from a live cursor
        have hreach := h.reach hlive
        by_cases hne : t = s0.builder.current
        · rw [hne]
          exact h.live_mono _ hreach
        · rw [h.code_kept t ht.exists_block hne] at hcode
          exact h.live_mono t (ht.live hcode hreach)
    exact ⟨hkept (h0.loops l hl).1, hkept (h0.loops l hl).2⟩
  bindings var binding hlookup := by
    rcases hbindings var binding hlookup with hold | hnew
    · exact h.heldAt havail (h0.bindings var binding hold)
    · exact hnew
  typed := h.typed

/-- Nothing has been bound since the earlier state. -/
lemma lookup_eq (h : Staged K A0 s0 A s P w) (hbinds : w.binds = false)
    (hlookup : s.scopes.lookup var = some binding) : s0.scopes.lookup var = some binding := by
  obtain ⟨added, hadds, hnone⟩ := h.scopes
  obtain rfl := hnone hbinds
  exact hadds.lookup_eq hlookup

end Staged

/-- The targets of the loops around the cursor were there before. -/
lemma Ready.marks_old (h : Ready K A s) (c : Course) (ht : (c.way s.loops).marks t = true) :
    t.id < s.builder.function.blocks.size := by
  cases hloops : s.loops with
  | nil =>
    rw [hloops] at ht
    cases ht
  | cons l loops =>
    obtain ⟨hexit, hnext⟩ := h.loops l (by rw [hloops]; exact List.mem_cons_self)
    simp only [hloops, Course.way, Flow.leadsTo, Bool.or_eq_true, Bool.and_eq_true,
      decide_eq_true_eq] at ht
    rcases ht with ⟨-, rfl⟩ | ⟨-, rfl⟩
    · exact hexit.exists_block
    · exact hnext.exists_block

/-- A piece of code is put at the cursor. -/
lemma Staged.then (h0 : Ready K A0 s0) (h : Staged K A0 s0 A s P w)
    (h' : Lowers K A s A' s' (c.way s.loops)) :
    Staged K A0 s0 A' s' (P \ {s.builder.current} ∪ {s'.builder.current})
      (w.andThen (c.way s0.loops)) := by
  have hway := h.loops_eq ▸ h'.toStaged
  refine h.trans h0.coherent hway fun t _ ht hge => ?_
  exact absurd (h0.marks_old c ht) (Nat.not_lt.mpr hge)

namespace Lowers

lemma congr (h : Lowers K A0 s0 A s w)
    (hbehind : s0.builder.isReachable = true → w.behind = w'.behind)
    (hmarks : ∀ t, t.id < s0.builder.function.blocks.size → w.marks t = w'.marks t)
    (hbinds : w'.binds = false → w.binds = false) : Lowers K A0 s0 A s w' :=
  { h with toStaged := h.toStaged.congr hbehind hmarks hbinds }

lemma staged (h0 : Ready K A0 s0) (h : Lowers K A0 s0 A s w) (h' : Staged K A s A' s' P w')
    (hmarks : ∀ t, s.builder.isReachable = true → w'.marks t = true →
      s0.builder.function.blocks.size ≤ t.id → s.builder.isLive t = true ∨ Spared s0 s t) :
    Staged K A0 s0 A' s' P (w.andThen w') :=
  (h.toStaged.trans h0.coherent h' hmarks).mono (by simp)

lemma trans (h0 : Ready K A0 s0) (h : Lowers K A0 s0 A s w)
    (h' : Lowers K A s A' s' (c.way s.loops)) :
    Lowers K A0 s0 A' s' (w.andThen (c.way s0.loops)) where
  toStaged := (h.toStaged.then h0 h').mono (by simp)
  isOpen := h'.isOpen
  avail v hv := h'.avail v (h.avail v hv)

lemma trans_pass (h0 : Ready K A0 s0) (h : Lowers K A0 s0 A s w)
    (h' : Lowers K A s A' s' (Course.pass.way s.loops)) : Lowers K A0 s0 A' s' w where
  toStaged := (h.toStaged.trans_pass h0.coherent h'.toStaged).mono (by simp)
  isOpen := h'.isOpen
  avail v hv := h'.avail v (h.avail v hv)

lemma operand (h : Lowers K A0 s0 A s w) (hv : Operand K ty A0 s0 v) : Operand K ty A s v :=
  h.toStaged.operand h.avail hv

lemma gives (h : Lowers K A0 s0 A s w) (hvalue : Gives K ty A0 s0 value) : Gives K ty A s value :=
  ⟨fun v hv => h.operand (hvalue.operand v hv), fun hk hr => hvalue.missing hk (h.reach hr)⟩

end Lowers

/-- A step that leaves the code as it is. -/
lemma Ready.unmoved (h : Ready K A s) (s' : LowerState)
    (hcode : codeOf s'.builder = codeOf s.builder) (hrooted : s'.builder.Rooted)
    (hlive : ∀ t, s'.builder.isLive t = s.builder.isLive t)
    (hheader : s'.builder.header = s.builder.header)
    (hcurrent : s'.builder.current = s.builder.current) (hloops : s'.loops = s.loops)
    (htold : Told s s') {binds : Bool}
    (hscopes : ∃ added, Adds added s.scopes s'.scopes ∧ (binds = false → added = [])) :
    Lowers K A s A s' (Course.way ⟨.pass, binds⟩ s.loops) := by
  have hb := h.coherent
  have hblocks : s'.builder.function.blocks.size = s.builder.function.blocks.size :=
    congrArg Code.blocks hcode
  have hkept (t : Block) : s'.builder.code t = s.builder.code t :=
    congrFun (congrArg Code.code hcode) t
  have hopen : Open s'.builder s'.builder.current := by
    rw [hcurrent, Open, hblocks, hcode]
    exact h.isOpen
  have hfollows := hb.toMarksFollow.congr hlive hblocks.ge fun p => by rw [hcode]
  have hgrown : Grown A s.builder A s'.builder :=
    ⟨hcode ▸ .refl A _, fun t _ _ => hkept t, fun t _ v hv _ => hkept t ▸ hv, hheader,
      congrArg Code.params hcode, fun t ht => (hlive t).trans ht, fun _ t => hlive t⟩
  refine ⟨⟨⟨⟨hfollows, hrooted, hcode ▸ hb.formed⟩, hgrown, fun t ht => ?_⟩, .inl hcurrent, hloops,
    fun t _ => ?_, ?_, htold, hscopes, fun ht => ?_⟩, hopen, fun v hv => ?_⟩
  · by_cases hne : t = s.builder.current
    · exact .inl (hne.trans hcurrent.symm)
    · exact .inr ⟨hblocks ▸ ht.1, hne⟩
  · simp [hlive, Course.way]
  · rw [Builder.isReachable, hcurrent, hlive]
    exact (Bool.and_true _).symm
  · refine (h.typed ht).head hb hgrown.extended hgrown.ret_eq hlive hkept
      fun v held pinned hv hge => ?_
    have hsame : s'.builder.function.inst? v = s.builder.function.inst? v :=
      congrFun (congrArg Code.inst hcode) v
    exact (h.typed ht).slots v held pinned (hsame ▸ hv)
  · rw [AtHand, hcode, hcurrent]
    exact hv

lemma Ready.refl (h : Ready K A s) : Lowers K A s A s (Course.pass.way s.loops) :=
  h.unmoved s rfl h.coherent.rooted (fun _ => rfl) rfl rfl rfl (.of_eq rfl)
    ⟨[], .refl _, fun _ => rfl⟩

/-- Lowering goes on behind a piece of code that binds nothing. -/
lemma Lowers.ready (h0 : Ready K A0 s0) (h : Lowers K A0 s0 A s w) (hbinds : w.binds = false) :
    Ready K A s :=
  h.toStaged.ready h0 h.isOpen h.avail fun _ _ hlookup => .inl (h.toStaged.lookup_eq hbinds hlookup)

namespace Completes

variable {α β : Type} {x : LowerM α} {f : α → LowerM β} {good good' : Avail → LowerState → α → Prop}
  {better : Avail → LowerState → β → Prop}

lemma of_lowers (h : Ready K A s) {Q : α → LowerState → Prop} (hx : Ends K x s Q)
    (hQ : ∀ a s', Q a s' → ∃ A', Lowers K A s A' s' (c.way s.loops) ∧ good A' s' a)
    (hbinds : c.binds = false) : Completes K c A s x good :=
  hx.mono fun a s' ha => by
    obtain ⟨A', hlow, hgood⟩ := hQ a s' ha
    exact ⟨A', hlow, hlow.ready h hbinds, hgood⟩

lemma pure (h : Ready K A s) {a : α} (ha : good A s a) : Completes K .pass A s (Pure.pure a) good :=
  Ends.pure ⟨A, h.refl, h, ha⟩

lemma bind (h : Ready K A s) (hx : Completes K c A s x good)
    (hf : ∀ a A' s', Lowers K A s A' s' (c.way s.loops) → Ready K A' s' → good A' s' a →
      Completes K d A' s' (f a) better) : Completes K (c.andThen d) A s (x >>= f) better := by
  refine Ends.bind hx fun a s' ⟨A', hlow, hready, hgood⟩ => ?_
  refine (hf a A' s' hlow hready hgood).mono fun b s'' ⟨A'', hlow', hready', hbetter⟩ => ?_
  exact ⟨A'', Course.way_andThen c d s.loops ▸ hlow.trans h hlow', hready', hbetter⟩

/-- A step that goes nowhere, and then another. -/
lemma step (h : Ready K A s) (hx : Completes K .pass A s x good)
    (hf : ∀ a A' s', Lowers K A s A' s' (Course.pass.way s.loops) → Ready K A' s' → good A' s' a →
      Completes K d A' s' (f a) better) : Completes K d A s (x >>= f) better :=
  bind h hx hf

/-- A step, and then one that goes nowhere. -/
lemma last (h : Ready K A s) (hx : Completes K c A s x good)
    (hf : ∀ a A' s', Lowers K A s A' s' (c.way s.loops) → Ready K A' s' → good A' s' a →
      Completes K .pass A' s' (f a) better) : Completes K c A s (x >>= f) better := by
  have hpass : c.andThen .pass = c := by simp [Course.andThen, Course.pass]
  exact hpass ▸ bind h hx hf

lemma mono (hx : Completes K c A s x good)
    (h : ∀ A' s' a, Lowers K A s A' s' (c.way s.loops) → good A' s' a → good' A' s' a) :
    Completes K c A s x good' :=
  Ends.mono hx fun a s' ⟨A', hlow, hready, hgood⟩ => ⟨A', hlow, hready, h A' s' a hlow hgood⟩

lemma map {g : α → β} (hx : Completes K c A s x fun A' s' a => better A' s' (g a)) :
    Completes K c A s (g <$> x) better :=
  Ends.map hx

lemma ignore (hx : Completes K c A s x good) :
    Completes K c A s (discard x) fun _ _ _ => True :=
  (hx.mono fun _ _ _ _ _ => trivial).map

lemma may_bind {f : Flow} {binds : Bool} (hx : Completes K ⟨f, false⟩ A s x good) :
    Completes K ⟨f, binds⟩ A s x good :=
  Ends.mono hx fun _ _ ⟨A', hlow, h⟩ =>
    ⟨A', hlow.congr (fun _ => rfl) (fun _ _ => rfl) fun _ => rfl, h⟩

lemma inconsistent {span : Span} {cause : Inconsistency} (h : ¬ K.sound) :
    Completes K c A s (Lowering.inconsistent span cause) good :=
  Ends.inconsistent h

end Completes

end SsaLowering.Proofs
