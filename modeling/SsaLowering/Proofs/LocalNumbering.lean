import SsaLowering.Proofs.Desugaring

/-!
# The locals of a body

Desugaring renames. The locals of a core body are numbered from zero on, each occurrence of a binding
gets the local of that binding, and the locals that desugaring adds are its own. A local is mutable
or captured exactly if the source says so at one of its occurrences.
-/

namespace SsaLowering.Proofs

open Source (LoadedBlock LoadedStmt LoadedExpr TypeTable)
open SsaLowering.Core List

/-! ### Occurrences -/

/-- What the source says where a local occurs. The local stands for a binding, which is declared
there or only used, or desugaring has added it, there or before. -/
inductive Mark where
  | binding (id : Nat) (mutable captured : Bool)
  | added (here : Bool)
  deriving DecidableEq

/-- What a declaration may say of a local. -/
inductive Trait where
  | mutable
  | captured

namespace Mark

def use (id : Nat) : Mark :=
  .binding id false false

def binding? : Mark → Option Nat
  | binding id _ _ => some id
  | added _ => none

/-- The mark of a later occurrence. -/
def again : Mark → Mark
  | binding id _ _ => .use id
  | added _ => .added false

/-- Whether a mark declares a trait. -/
def tells : Trait → Mark → Bool
  | .mutable, binding _ mutable _ => mutable
  | .captured, binding _ _ captured => captured
  | _, added _ => false

end Mark

def declares (decl : LocalDecl) : Trait → Bool
  | .mutable => decl.mutable
  | .captured => decl.captured

def patternVars : Pattern → List Local
  | .bind var => [var]
  | .ok var | .err var => var.toList
  | _ => []

mutual

def blockVars : Core.Block → List Local
  | ⟨_, _, stmts, none⟩ => stmtsVars stmts
  | ⟨_, _, stmts, some tail⟩ => stmtsVars stmts ++ exprVars tail

def stmtsVars : List Stmt → List Local
  | [] => []
  | stmt :: rest => stmtVars stmt ++ stmtsVars rest

def stmtVars : Stmt → List Local
  | ⟨_, _, .letVar var none⟩ => [var]
  | ⟨_, _, .letVar var (some init)⟩ => exprVars init ++ [var]
  | ⟨_, _, .assign (.localVar var) value⟩ => var :: exprVars value
  | ⟨_, _, .assign (.field base _) value⟩ => exprVars base ++ exprVars value
  | ⟨_, _, .assign (.globalVar _) value⟩ | ⟨_, _, .expr value⟩ | ⟨_, _, .ret (some value)⟩ =>
    exprVars value
  | ⟨_, _, .loop none body none⟩ => blockVars body
  | ⟨_, _, .loop none body (some step)⟩ => blockVars body ++ blockVars step
  | ⟨_, _, .loop (some cond) body none⟩ => exprVars cond ++ blockVars body
  | ⟨_, _, .loop (some cond) body (some step)⟩ =>
    exprVars cond ++ (blockVars body ++ blockVars step)
  | ⟨_, _, .ret none⟩ | ⟨_, _, .breakLoop⟩ | ⟨_, _, .continueLoop⟩ => []

def exprVars : Expr → List Local
  | ⟨_, _, _, .literal _⟩ | ⟨_, _, _, .globalVar _⟩ => []
  | ⟨_, _, _, .localVar var⟩ => [var]
  | ⟨_, _, _, .binary _ lhs rhs⟩ => exprVars lhs ++ exprVars rhs
  | ⟨_, _, _, .unary _ value⟩ | ⟨_, _, _, .cast value⟩ | ⟨_, _, _, .field value _⟩
  | ⟨_, _, _, .ok value⟩ | ⟨_, _, _, .err value⟩ | ⟨_, _, _, .propagate value⟩ => exprVars value
  | ⟨_, _, _, .call _ args⟩ => exprsVars args
  | ⟨_, _, _, .data inits⟩ => initsVars inits
  | ⟨_, _, _, .ifElse cond body otherwise⟩ =>
    exprVars cond ++ (blockVars body ++ blockVars otherwise)
  | ⟨_, _, _, .matchOn scrutinee arms⟩ => exprVars scrutinee ++ armsVars arms
  | ⟨_, _, _, .block body⟩ => blockVars body

def exprsVars : List Expr → List Local
  | [] => []
  | expr :: rest => exprVars expr ++ exprsVars rest

def initsVars : List FieldInit → List Local
  | [] => []
  | ⟨_, value⟩ :: rest => exprVars value ++ initsVars rest

def armsVars : List Arm → List Local
  | [] => []
  | ⟨pattern, body, _⟩ :: rest => patternVars pattern ++ (exprVars body ++ armsVars rest)

end

def varMarks (var : Source.Binding) : List Mark :=
  [.binding var.binding var.mutable false]

def patternMarks : Source.Pattern → List Mark
  | .bind var | .ok (some var) | .err (some var) => varMarks var
  | _ => []

mutual

def blockMarks : LoadedBlock → List Mark
  | ⟨_, _, stmts, none⟩ => stmtsMarks stmts
  | ⟨_, _, stmts, some tail⟩ => stmtsMarks stmts ++ exprMarks tail

def stmtsMarks : List LoadedStmt → List Mark
  | [] => []
  | stmt :: rest => stmtMarks stmt ++ stmtsMarks rest

/-- The base of a field that is both read and written is kept in a local. So is the bound of a loop,
and its counter and bound are compared before each turn. -/
def stmtMarks : LoadedStmt → List Mark
  | ⟨_, _, .letVar id _ mutable captured _ none⟩ => [.binding id mutable captured]
  | ⟨_, _, .letVar id _ mutable captured _ (some init)⟩ =>
    exprMarks init ++ [.binding id mutable captured]
  | ⟨_, _, .assign ⟨_, _, _, .localVar id _⟩ none value⟩ => .use id :: exprMarks value
  | ⟨_, _, .assign ⟨_, _, _, .localVar id _⟩ (some _) value⟩ =>
    .use id :: .use id :: exprMarks value
  | ⟨_, _, .assign ⟨_, _, _, .field base _⟩ none value⟩ => exprMarks base ++ exprMarks value
  | ⟨_, _, .assign ⟨_, _, _, .field base _⟩ (some _) value⟩ =>
    exprMarks base ++ (.added true :: .added false :: .added false :: exprMarks value)
  | ⟨_, _, .assign _ _ value⟩ | ⟨_, _, .expr value⟩ | ⟨_, _, .ret (some value)⟩ => exprMarks value
  | ⟨_, _, .ifElse cond body otherwise⟩ =>
    exprMarks cond ++ (blockMarks body ++ elseMarks otherwise)
  | ⟨_, _, .whileLoop cond body⟩ => exprMarks cond ++ blockMarks body
  | ⟨_, _, .loop body⟩ => blockMarks body
  | ⟨_, _, .forRange id _ first last _ body⟩ =>
    exprMarks first ++ .binding id true false :: (exprMarks last ++ .added true :: .use id ::
      .added false :: (blockMarks body ++ [.use id, .use id]))
  | ⟨_, _, .ret none⟩ | ⟨_, _, .breakLoop⟩ | ⟨_, _, .continueLoop⟩ => []

def elseMarks : Option (Source.Else Nat Span Nat) → List Mark
  | none => []
  | some (.block body) => blockMarks body
  | some (.chain stmt) => stmtMarks stmt

def exprMarks : LoadedExpr → List Mark
  | ⟨_, _, _, .literal _⟩ | ⟨_, _, _, .globalVar _⟩ => []
  | ⟨_, _, _, .localVar id _⟩ => [.use id]
  | ⟨_, _, _, .binary _ lhs rhs⟩ => exprMarks lhs ++ exprMarks rhs
  | ⟨_, _, _, .unary _ value⟩ | ⟨_, _, _, .cast value⟩ | ⟨_, _, _, .field value _⟩
  | ⟨_, _, _, .ok value⟩ | ⟨_, _, _, .err value⟩ | ⟨_, _, _, .propagate value⟩ => exprMarks value
  | ⟨_, _, _, .call _ args⟩ => exprsMarks args
  | ⟨_, _, _, .data inits⟩ => initsMarks inits
  | ⟨_, _, _, .ifElse cond body none⟩ => exprMarks cond ++ blockMarks body
  | ⟨_, _, _, .ifElse cond body (some other)⟩ =>
    exprMarks cond ++ (blockMarks body ++ exprMarks other)
  | ⟨_, _, _, .matchOn scrutinee arms⟩ => exprMarks scrutinee ++ armsMarks arms
  | ⟨_, _, _, .block body⟩ => blockMarks body

def exprsMarks : List LoadedExpr → List Mark
  | [] => []
  | expr :: rest => exprMarks expr ++ exprsMarks rest

def initsMarks : List (Source.FieldInit Nat Span Nat) → List Mark
  | [] => []
  | ⟨_, value⟩ :: rest => exprMarks value ++ initsMarks rest

def armsMarks : List (Source.Arm Nat Span Nat) → List Mark
  | [] => []
  | ⟨pattern, body, _⟩ :: rest => patternMarks pattern ++ (exprMarks body ++ armsMarks rest)

end

/-! ### Locals that are given out -/

/-- The locals that desugaring adds somewhere, in order. -/
def additions (occs : List (Local × Mark)) : List Nat :=
  (occs.filter (·.2 = .added true)).map (·.1.id)

def IsTold (locals : Locals) (trait : Trait) (var : Local) : Prop :=
  ∃ decl, locals.decls[var.id]? = some decl ∧ declares decl trait = true

/-- A local stands for the binding at its occurrence, or for none. -/
def StandsFor (locals : Locals) (occ : Local × Mark) : Prop :=
  match occ.2.binding? with
  | some id => (id, occ.1) ∈ locals.bindings
  | none => occ.1.id < locals.decls.size ∧ ∀ p ∈ locals.bindings, p.2 ≠ occ.1

/-- From some locals to others, with all occurrences on the way. -/
structure Allots (before after : Locals) (occs : List (Local × Mark)) : Prop where
  ok : LocalsOk after
  grow : LocalsGrow before after
  stands : ∀ occ ∈ occs, StandsFor after occ
  additions_nodup : (additions occs).Nodup
  additions_new : ∀ id ∈ additions occs, before.decls.size ≤ id ∧ id < after.decls.size
  dense : ∀ id, before.decls.size ≤ id → id < after.decls.size → ∃ occ ∈ occs, occ.1.id = id
  told_iff : ∀ trait var, IsTold after trait var ↔
    IsTold before trait var ∨ ∃ occ ∈ occs, occ.1 = var ∧ occ.2.tells trait = true

section Steps

variable {L0 L1 L2 : Locals} {occs more : List (Local × Mark)}

lemma StandsFor.mono {occ : Local × Mark} (h : StandsFor L1 occ) (hgrow : LocalsGrow L1 L2) :
    StandsFor L2 occ := by
  unfold StandsFor at h ⊢
  split at h
  · exact hgrow.kept _ h
  · refine ⟨h.1.trans_le hgrow.size_le, fun p hp heq => ?_⟩
    rcases hgrow.added p hp with hold | hnew
    · exact h.2 p hold heq
    · exact absurd (heq ▸ h.1) (Nat.not_lt.mpr hnew)

namespace Allots

lemma nil (h : LocalsOk L0) : Allots L0 L0 [] where
  ok := h
  grow := .refl _
  stands := forall_mem_nil _
  additions_nodup := .nil
  additions_new := forall_mem_nil _
  dense _ hle hlt := absurd hlt (Nat.not_lt.mpr hle)
  told_iff := by simp

lemma append (h : Allots L0 L1 occs) (h' : Allots L1 L2 more) : Allots L0 L2 (occs ++ more) where
  ok := h'.ok
  grow := h.grow.trans h'.grow
  stands := forall_mem_append.mpr ⟨fun occ hocc => (h.stands occ hocc).mono h'.grow, h'.stands⟩
  additions_nodup := by
    rw [additions, filter_append, map_append]
    refine h.additions_nodup.append h'.additions_nodup fun id hold hnew => ?_
    exact absurd (h.additions_new id hold).2 (Nat.not_lt.mpr (h'.additions_new id hnew).1)
  additions_new := by
    rw [additions, filter_append, map_append]
    exact forall_mem_append.mpr ⟨fun id hid => ⟨(h.additions_new id hid).1,
      (h.additions_new id hid).2.trans_le h'.grow.size_le⟩,
      fun id hid => ⟨h.grow.size_le.trans (h'.additions_new id hid).1, (h'.additions_new id hid).2⟩⟩
  dense id hle hlt := by
    rcases Nat.lt_or_ge id L1.decls.size with hold | hnew
    · obtain ⟨occ, hocc, heq⟩ := h.dense id hle hold
      exact ⟨occ, mem_append_left _ hocc, heq⟩
    · obtain ⟨occ, hocc, heq⟩ := h'.dense id hnew hlt
      exact ⟨occ, mem_append_right _ hocc, heq⟩
  told_iff trait var := by
    simp only [h'.told_iff, h.told_iff, mem_append, or_and_right, exists_or, or_assoc]

lemma relist (h : Allots L0 L1 occs)
    (hmore : ∀ occ ∈ more, occ ∈ occs ∨ ∃ first ∈ occs, occ = (first.1, first.2.again))
    (hall : ∀ occ ∈ occs, occ ∈ more) (hadditions : additions more = additions occs) :
    Allots L0 L1 more where
  ok := h.ok
  grow := h.grow
  stands occ hocc := by
    rcases hmore occ hocc with hocc | ⟨⟨var, mark⟩, hfirst, rfl⟩
    · exact h.stands occ hocc
    · have hstands := h.stands _ hfirst
      cases mark <;> exact hstands
  additions_nodup := hadditions ▸ h.additions_nodup
  additions_new := hadditions ▸ h.additions_new
  dense id hle hlt := by
    obtain ⟨occ, hocc, heq⟩ := h.dense id hle hlt
    exact ⟨occ, hall occ hocc, heq⟩
  told_iff trait var := by
    rw [h.told_iff]
    refine or_congr_right ⟨?_, ?_⟩
    · rintro ⟨occ, hocc, heq⟩
      exact ⟨occ, hall occ hocc, heq⟩
    · rintro ⟨occ, hocc, heq, htells⟩
      rcases hmore occ hocc with hocc | ⟨⟨first, mark⟩, -, rfl⟩
      · exact ⟨occ, hocc, heq, htells⟩
      · cases mark <;> cases trait <;> cases htells

end Allots

lemma isTold_push {decl : LocalDecl} {trait : Trait} {var : Local}
    (bindings : List (Nat × Local)) : IsTold ⟨L0.decls.push decl, bindings⟩ trait var ↔
      IsTold L0 trait var ∨ ⟨L0.decls.size⟩ = var ∧ declares decl trait = true := by
  obtain ⟨id⟩ := var
  simp only [IsTold, Array.getElem?_push, Local.mk.injEq]
  by_cases hid : id = L0.decls.size
  · simp [hid]
  · simp [hid, Ne.symm hid]

lemma freshLocal_allots (hok : LocalsOk L0) (decl : LocalDecl)
    (hdecl : ∀ trait, declares decl trait = false) :
    Allots L0 { L0 with decls := L0.decls.push decl } [(⟨L0.decls.size⟩, .added true)] where
  ok := hok.push decl
  grow := .push L0 decl
  stands := forall_mem_singleton.mpr ⟨by simp, fun p hp heq => by
    have hlt := hok.declared p hp
    rw [heq] at hlt
    exact Nat.lt_irrefl _ hlt⟩
  additions_nodup := nodup_singleton _
  additions_new := by simp [additions]
  dense id hle hlt := by
    rw [Array.size_push] at hlt
    exact ⟨_, mem_singleton_self _, by simp; omega⟩
  told_iff trait var := by
    rw [isTold_push, hdecl]
    cases trait <;> simp [Mark.tells]

lemma bindLocal_allots {id : Nat} {decl : LocalDecl} {var : Local} (hok : LocalsOk L0)
    (h : bindLocal id decl L0 = .ok (var, L1)) :
    Allots L0 L1 [(var, .binding id decl.mutable decl.captured)] := by
  obtain ⟨hok1, hgrow, -⟩ := bindLocal_translates id decl L0 var L1 hok h
  rcases hlookup : L0.bindings.lookup id with _ | known
  · rw [bindLocal_new hlookup] at h
    cases h
    refine ⟨hok1, hgrow, by simp [StandsFor, Mark.binding?], by simp [additions], by simp [additions],
      fun id hle hlt => ⟨_, mem_singleton_self _, ?_⟩, fun trait var => ?_⟩
    · rw [Array.size_push] at hlt
      simp
      omega
    · rw [isTold_push]
      cases trait <;> simp [Mark.tells, declares]
  · rw [bindLocal_known hlookup] at h
    cases h
    have hmem := mem_of_lookup_eq_some hlookup
    refine ⟨hok1, hgrow, forall_mem_singleton.mpr hmem, by simp [additions], by simp [additions],
      fun id hle hlt => absurd hlt (by simpa using hle), fun trait other => ?_⟩
    have hlt := hok.declared _ hmem
    simp only [IsTold, Array.getElem?_modify]
    by_cases hother : var = other
    · subst hother
      cases trait <;> simp [hlt, declares, Mark.tells]
    · have hid : var.id ≠ other.id := fun heq => hother (by cases var; cases other; simp_all)
      simp [hother, hid]

/-! ### Steps of desugaring -/

/-- A step of desugaring gives something and, listed in some way, the occurrences in it. -/
def Lists {α : Type} (m : DesugarM α) (Q : α → List (Local × Mark) → Prop) : Prop :=
  ∀ ⦃L0 a L1⦄, LocalsOk L0 → m L0 = .ok (a, L1) → ∃ occs, Q a occs ∧ Allots L0 L1 occs

/-- Some locals occur, with what the source says there. -/
def Matches (vars : List Local) (marks : List Mark) (occs : List (Local × Mark)) : Prop :=
  occs.map Prod.fst = vars ∧ occs.map Prod.snd = marks

lemma Matches.single (var : Local) (mark : Mark) : Matches [var] [mark] [(var, mark)] :=
  ⟨rfl, rfl⟩

lemma Matches.append {vars vars' : List Local} {marks marks' : List Mark}
    (h : Matches vars marks occs) (h' : Matches vars' marks' more) :
    Matches (vars ++ vars') (marks ++ marks') (occs ++ more) := by
  rw [Matches, map_append, map_append, h.1, h.2, h'.1, h'.2]
  exact ⟨rfl, rfl⟩

namespace Lists

variable {α β : Type} {m : DesugarM α} {P : α → List (Local × Mark) → Prop}
  {Q : β → List (Local × Mark) → Prop}

lemma pure {a : α} (h : P a []) : Lists (Pure.pure a) P := by
  rintro L0 _ _ hok ⟨⟩
  exact ⟨[], h, .nil hok⟩

lemma inconsistent {span : Span} {cause : Inconsistency} : Lists (Core.inconsistent span cause) P := by
  rintro L0 a L1 - ⟨⟩

lemma inconsistent_bind {span : Span} {cause : Inconsistency} {f : α → DesugarM β} :
    Lists (Core.inconsistent span cause >>= f) Q := by
  rintro L0 a L1 - ⟨⟩

lemma bind {f : α → DesugarM β} (hm : Lists m P)
    (hf : ∀ a occs, P a occs → Lists (f a) fun b more => Q b (occs ++ more)) :
    Lists (m >>= f) Q := by
  intro L0 b L2 hok h
  change (m L0 >>= fun p => f p.1 p.2) = _ at h
  rcases hr : m L0 with e | ⟨a, L1⟩
  · rw [hr] at h
    cases h
  · rw [hr] at h
    obtain ⟨occs, ha, hallots⟩ := hm hok hr
    obtain ⟨more, hb, hallots'⟩ := hf a occs ha hallots.ok h
    exact ⟨occs ++ more, hb, hallots.append hallots'⟩

lemma map {f : α → β} (hm : Lists m P) (h : ∀ a occs, P a occs → Q (f a) occs) :
    Lists (m >>= fun a => Pure.pure (f a)) Q :=
  hm.bind fun a occs ha => .pure (by rw [append_nil]; exact h a occs ha)

lemma skip {f : α → DesugarM β} (hm : Lists m fun _ occs => occs = []) (hf : ∀ a, Lists (f a) Q) :
    Lists (m >>= f) Q :=
  hm.bind fun a _ hocc => hocc ▸ hf a

lemma relist {m : DesugarM α} (hm : Lists m fun a occs => ∃ more, P a more ∧
      (∀ occ ∈ more, occ ∈ occs ∨ ∃ first ∈ occs, occ = (first.1, first.2.again)) ∧
      (∀ occ ∈ occs, occ ∈ more) ∧ additions more = additions occs) : Lists m P := by
  intro L0 a L1 hok h
  obtain ⟨occs, ⟨more, ha, hmore, hall, hadditions⟩, hallots⟩ := hm hok h
  exact ⟨more, ha, hallots.relist hmore hall hadditions⟩

end Lists

lemma bindLocal_lists (id : Nat) (decl : LocalDecl) : Lists (bindLocal id decl) fun var occs =>
    occs = [(var, .binding id decl.mutable decl.captured)] :=
  fun _ _ _ hok h => ⟨_, rfl, bindLocal_allots hok h⟩

lemma freshLocal_lists (name : String) (ty : Nat) :
    Lists (freshLocal { name, ty, mutable := false }) fun var occs => occs = [(var, .added true)] := by
  rintro L0 _ _ hok ⟨⟩
  exact ⟨_, rfl, freshLocal_allots hok _ fun trait => by cases trait <;> rfl⟩

lemma eagerOp_lists (span : Span) (op : Source.BinaryOp) :
    Lists (eagerOp span op) fun _ occs => occs = [] := by
  rw [eagerOp]
  split
  · exact .pure rfl
  · exact .inconsistent

lemma fieldIndex_lists (types : TypeTable) (ty : Nat) (name : String) (span : Span) :
    Lists (fieldIndex types ty name span) fun _ occs => occs = [] := by
  rw [fieldIndex]
  split
  · exact .inconsistent
  · split
    · exact .pure rfl
    · exact .inconsistent

variable {types : TypeTable}

lemma desugarPattern_lists (scrutinee : Nat) (span : Span) (pattern : Source.Pattern) :
    Lists (desugarPattern types scrutinee span pattern) fun pattern' =>
      Matches (patternVars pattern') (patternMarks pattern) := by
  have hvar (ty : Nat) (var : Option Source.Binding) : Lists (var.mapM (bindVar ty)) fun var' =>
      Matches var'.toList (var.toList.flatMap varMarks) := by
    cases var with
    | none => exact .pure ⟨rfl, rfl⟩
    | some var => exact (bindLocal_lists _ _).map fun _ _ h => h ▸ ⟨rfl, rfl⟩
  cases pattern with
  | wildcard | int | bool => exact .pure ⟨rfl, rfl⟩
  | bind var => exact (bindLocal_lists _ _).map fun _ _ h => h ▸ ⟨rfl, rfl⟩
  | ok var | err var =>
    rw [desugarPattern]
    split
    · refine (hvar _ var).map fun _ _ h => ?_
      cases var <;> exact h
    · exact .inconsistent

lemma stmtsVars_append (stmts rest : List Stmt) :
    stmtsVars (stmts ++ rest) = stmtsVars stmts ++ stmtsVars rest := by
  induction stmts with
  | nil => rfl
  | cons stmt stmts ih => simp [stmtsVars, ih]

section Assignments

variable {value : LoadedExpr} (node : Nat) (span : Span) (op : Option Source.BinaryOp)
  (hvalue : Lists (desugarExpr types value) fun value' => Matches (exprVars value') (exprMarks value))

include hvalue

lemma assignLocal_lists (target : Nat) (targetSpan : Span) (ty id : Nat) (name : String) :
    Lists (desugarStmt types
        ⟨node, span, .assign ⟨target, targetSpan, ty, .localVar id name⟩ op value⟩)
      fun stmts' => Matches (stmtsVars stmts')
        (stmtMarks ⟨node, span, .assign ⟨target, targetSpan, ty, .localVar id name⟩ op value⟩) := by
  cases op with
  | none =>
    simp only [desugarStmt, pure_bind]
    refine (bindLocal_lists _ _).bind fun var _ hvar => hvalue.map fun _ _ hvalue => ?_
    simpa [hvar, stmtsVars, stmtVars, stmtMarks, Matches, Mark.use] using hvalue
  | some op =>
    simp only [desugarStmt, pure_bind]
    refine .relist <| (bindLocal_lists _ _).bind fun var _ hvar => hvalue.bind fun _ values hvalue =>
      (eagerOp_lists span op).map fun _ _ hnil => ?_
    subst hvar hnil
    refine ⟨(var, .use id) :: (var, .use id) :: values, ?_, ?_, ?_, ?_⟩
    · simp [Matches, stmtsVars, stmtVars, exprVars, Place.read, stmtMarks, hvalue.1, hvalue.2]
    · simp +contextual [Mark.use]
    · simp +contextual [Mark.use]
    · simp [additions, Mark.use]

lemma assignGlobal_lists (target : Nat) (targetSpan : Span) (ty : Nat) (name : String) :
    Lists (desugarStmt types
        ⟨node, span, .assign ⟨target, targetSpan, ty, .globalVar name⟩ op value⟩)
      fun stmts' => Matches (stmtsVars stmts') (exprMarks value) := by
  cases op with
  | none =>
    simp only [desugarStmt, pure_bind]
    exact hvalue.map fun _ _ hvalue => by simpa [stmtsVars, stmtVars] using hvalue
  | some op =>
    simp only [desugarStmt, pure_bind]
    refine hvalue.bind fun _ _ hvalue => (eagerOp_lists span op).map fun _ _ hnil => ?_
    simpa [hnil, stmtsVars, stmtVars, exprVars, Place.read] using hvalue

lemma assignField_lists {base : LoadedExpr}
    (hbase : Lists (desugarExpr types base) fun base' => Matches (exprVars base') (exprMarks base))
    (target : Nat) (targetSpan : Span) (ty : Nat) (name : String) :
    Lists (desugarStmt types
        ⟨node, span, .assign ⟨target, targetSpan, ty, .field base name⟩ op value⟩)
      fun stmts' => Matches (stmtsVars stmts')
        (stmtMarks ⟨node, span, .assign ⟨target, targetSpan, ty, .field base name⟩ op value⟩) := by
  cases op with
  | none =>
    simp only [desugarStmt, pure_bind, Option.isSome_none, Bool.false_eq_true, if_false]
    refine hbase.bind fun _ _ hbase => .skip (fieldIndex_lists types _ name targetSpan) fun _ =>
      hvalue.map fun _ _ hvalue => ?_
    simpa [stmtsVars, stmtVars, stmtMarks] using hbase.append hvalue
  | some op =>
    simp only [desugarStmt, holdBase, bind_assoc, pure_bind, Option.isSome_some, if_true]
    refine .relist <| hbase.bind fun _ bases hbase =>
      .skip (fieldIndex_lists types _ name targetSpan) fun _ => (freshLocal_lists _ _).bind
        fun var _ hvar => hvalue.bind fun _ values hvalue => (eagerOp_lists span op).map
          fun _ _ hnil => ?_
    subst hvar hnil
    refine ⟨bases ++ (var, .added true) :: (var, .added false) :: (var, .added false) :: values,
      ?_, ?_, ?_, ?_⟩
    · simp [Matches, stmtsVars, stmtVars, exprVars, Place.read, stmtMarks, hbase.1, hbase.2,
        hvalue.1, hvalue.2]
    · simp
      grind [Mark.again]
    · simp
      grind
    · simp [additions]

end Assignments

mutual

lemma desugarBlock_lists : ∀ block : LoadedBlock, Lists (desugarBlock types block) fun block' =>
    Matches (blockVars block') (blockMarks block)
  | ⟨_, _, stmts, none⟩ => (desugarStmts_lists stmts).map fun _ _ h => h
  | ⟨_, _, stmts, some tail⟩ => by
    simp only [desugarBlock, map_eq_pure_bind, bind_assoc, pure_bind]
    exact (desugarStmts_lists stmts).bind fun _ _ hstmts => (desugarExpr_lists tail).map
      fun _ _ htail => hstmts.append htail

lemma desugarStmts_lists : ∀ stmts : List LoadedStmt, Lists (desugarStmts types stmts)
    fun stmts' => Matches (stmtsVars stmts') (stmtsMarks stmts)
  | [] => .pure ⟨rfl, rfl⟩
  | stmt :: rest => (desugarStmt_lists stmt).bind fun _ _ hstmt => (desugarStmts_lists rest).map
    fun _ _ hrest => by
      rw [stmtsVars_append]
      exact hstmt.append hrest

lemma desugarStmt_lists : ∀ stmt : LoadedStmt, Lists (desugarStmt types stmt)
    fun stmts' => Matches (stmtsVars stmts') (stmtMarks stmt)
  | ⟨_, _, .letVar id _ mutable captured _ none⟩ => by
    simp only [desugarStmt, pure_bind]
    exact (bindLocal_lists _ _).map fun _ _ h => h ▸ ⟨rfl, rfl⟩
  | ⟨_, _, .letVar id _ mutable captured _ (some init)⟩ => by
    simp only [desugarStmt, map_eq_pure_bind, bind_assoc, pure_bind]
    refine (desugarExpr_lists init).bind fun _ _ hinit => (bindLocal_lists _ _).map fun _ _ h => ?_
    simpa [stmtsVars, stmtVars, stmtMarks, h] using hinit.append (.single _ _)
  | ⟨node, span, .assign ⟨target, targetSpan, ty, kind⟩ op value⟩ => by
    have hvalue := desugarExpr_lists value
    cases kind with
    | localVar id name => exact assignLocal_lists node span op hvalue target targetSpan ty id name
    | globalVar name => exact assignGlobal_lists node span op hvalue target targetSpan ty name
    | field base name =>
      exact assignField_lists node span op hvalue (desugarExpr_lists base) target targetSpan ty name
    | _ => exact .inconsistent_bind
  | ⟨_, _, .expr value⟩ | ⟨_, _, .ret (some value)⟩ =>
    (desugarExpr_lists value).map fun _ _ h => by simpa [stmtsVars, stmtVars, stmtMarks] using h
  | ⟨_, _, .ret none⟩ | ⟨_, _, .breakLoop⟩ | ⟨_, _, .continueLoop⟩ => .pure ⟨rfl, rfl⟩
  | ⟨node, span, .ifElse cond body otherwise⟩ =>
    (desugarExpr_lists cond).bind fun _ _ hcond => (desugarBlock_lists body).bind fun _ _ hbody =>
      (desugarElse_lists node span otherwise).map fun _ _ hotherwise => by
        simpa [stmtsVars, stmtVars, exprVars, stmtMarks] using hcond.append (hbody.append hotherwise)
  | ⟨_, _, .whileLoop cond body⟩ =>
    (desugarExpr_lists cond).bind fun _ _ hcond => (desugarBlock_lists body).map fun _ _ hbody => by
      simpa [stmtsVars, stmtVars, stmtMarks] using hcond.append hbody
  | ⟨_, _, .loop body⟩ =>
    (desugarBlock_lists body).map fun _ _ h => by simpa [stmtsVars, stmtVars, stmtMarks] using h
  | ⟨node, span, .forRange id _ first last inclusive body⟩ => by
    refine .relist <| (desugarExpr_lists first).bind fun _ firsts hfirst =>
      (desugarExpr_lists last).bind fun _ lasts hlast => (bindLocal_lists _ _).bind
        fun counter _ hcounter => (freshLocal_lists _ _).bind fun bound _ hbound =>
          (desugarBlock_lists body).map fun _ turns hbody => ?_
    subst hcounter hbound
    refine ⟨firsts ++ (counter, .binding id true false) :: (lasts ++ (bound, .added true) ::
      (counter, .use id) :: (bound, .added false) :: (turns ++ [(counter, .use id), (counter, .use id)])),
      ?_, ?_, ?_, ?_⟩
    · simp [Matches, stmtsVars, stmtVars, exprVars, countedLoop, blockVars, stmtMarks, hfirst.1,
        hfirst.2, hlast.1, hlast.2, hbody.1, hbody.2]
    · simp
      grind [Mark.again]
    · simp
      grind
    · simp [additions, Mark.use]

lemma desugarElse_lists (node : Nat) (span : Span) : ∀ otherwise : Option (Source.Else Nat Span Nat),
    Lists (desugarElse types node span otherwise) fun block' =>
      Matches (blockVars block') (elseMarks otherwise)
  | none => .pure ⟨rfl, rfl⟩
  | some (.block body) => desugarBlock_lists body
  | some (.chain ⟨node, span, kind⟩) => by
    cases kind with
    | ifElse cond body otherwise =>
      exact (desugarExpr_lists cond).bind fun _ _ hcond => (desugarBlock_lists body).bind
        fun _ _ hbody => (desugarElse_lists node span otherwise).map fun _ _ hotherwise =>
          hcond.append (hbody.append hotherwise)
    | _ => exact .inconsistent

lemma desugarExpr_lists : ∀ expr : LoadedExpr, Lists (desugarExpr types expr) fun expr' =>
    Matches (exprVars expr') (exprMarks expr)
  | ⟨_, _, _, .literal _⟩ | ⟨_, _, _, .globalVar _⟩ => .pure ⟨rfl, rfl⟩
  | ⟨_, _, _, .localVar id _⟩ => (bindLocal_lists _ _).map fun _ _ h => h ▸ ⟨rfl, rfl⟩
  | ⟨_, span, _, .binary op lhs rhs⟩ => by
    have hlhs := desugarExpr_lists lhs
    have hrhs := desugarExpr_lists rhs
    cases op with
    | and | or =>
      refine hlhs.bind fun _ _ hlhs => hrhs.map fun _ _ hrhs => ?_
      simpa [exprVars, blockVars, stmtsVars, Block.wrap, skipped, exprMarks] using hlhs.append hrhs
    | _ =>
      exact .skip (eagerOp_lists span _) fun _ => hlhs.bind fun _ _ hlhs => hrhs.map
        fun _ _ hrhs => hlhs.append hrhs
  | ⟨_, _, _, .unary _ value⟩ | ⟨_, _, _, .cast value⟩ | ⟨_, _, _, .ok value⟩
  | ⟨_, _, _, .err value⟩ | ⟨_, _, _, .propagate value⟩ => (desugarExpr_lists value).map fun _ _ h => h
  | ⟨_, _, _, .call _ args⟩ => (desugarExprs_lists args).map fun _ _ h => h
  | ⟨_, span, _, .field base name⟩ =>
    (desugarExpr_lists base).bind fun _ _ h => (fieldIndex_lists types _ name span).map
      fun _ _ hnil => by rw [hnil, append_nil]; exact h
  | ⟨_, span, _, .data inits⟩ => by
    simp only [desugarExpr]
    split
    · exact .inconsistent
    · split
      · exact .inconsistent
      · exact (desugarInits_lists span _ [] inits).map fun _ _ h => h
  | ⟨_, _, _, .ifElse cond body none⟩ =>
    (desugarExpr_lists cond).bind fun _ _ hcond => (desugarBlock_lists body).map fun _ _ hbody => by
      simpa [exprVars, blockVars, stmtsVars, Block.empty, exprMarks] using hcond.append hbody
  | ⟨_, _, _, .ifElse cond body (some ⟨otherNode, otherSpan, otherTy, kind⟩)⟩ => by
    have hcond := desugarExpr_lists cond
    have hbody := desugarBlock_lists body
    have hwrap : Lists (Block.wrap <$> desugarExpr types ⟨otherNode, otherSpan, otherTy, kind⟩)
        fun block' => Matches (blockVars block')
          (exprMarks ⟨otherNode, otherSpan, otherTy, kind⟩) :=
      (desugarExpr_lists ⟨otherNode, otherSpan, otherTy, kind⟩).map fun _ _ h => h
    cases kind with
    | block other =>
      exact hcond.bind fun _ _ hcond => hbody.bind fun _ _ hbody =>
        (desugarBlock_lists other).map fun _ _ hother => hcond.append (hbody.append hother)
    | _ =>
      exact hcond.bind fun _ _ hcond => hbody.bind fun _ _ hbody =>
        hwrap.map fun _ _ hother => hcond.append (hbody.append hother)
  | ⟨_, _, _, .matchOn scrutinee arms⟩ =>
    (desugarExpr_lists scrutinee).bind fun _ _ h => (desugarArms_lists _ arms).map
      fun _ _ harms => h.append harms
  | ⟨_, _, _, .block body⟩ => (desugarBlock_lists body).map fun _ _ h => h

lemma desugarExprs_lists : ∀ exprs : List LoadedExpr, Lists (desugarExprs types exprs)
    fun exprs' => Matches (exprsVars exprs') (exprsMarks exprs)
  | [] => .pure ⟨rfl, rfl⟩
  | expr :: rest => (desugarExpr_lists expr).bind fun _ _ h => (desugarExprs_lists rest).map
    fun _ _ hrest => h.append hrest

lemma desugarInits_lists (span : Span) (data : Source.DataType) (seen : List Nat) :
    ∀ inits : List (Source.FieldInit Nat Span Nat), Lists (desugarInits types data span seen inits)
      fun inits' => Matches (initsVars inits') (initsMarks inits)
  | [] => .pure ⟨rfl, rfl⟩
  | ⟨name, value⟩ :: rest => by
    simp only [desugarInits]
    split
    · exact .inconsistent
    · split
      · exact .inconsistent_bind
      · exact (desugarExpr_lists value).bind fun _ _ h => (desugarInits_lists span data _ rest).map
          fun _ _ hrest => h.append hrest

lemma desugarArms_lists (scrutinee : Nat) : ∀ arms : List (Source.Arm Nat Span Nat),
    Lists (desugarArms types scrutinee arms) fun arms' => Matches (armsVars arms') (armsMarks arms)
  | [] => .pure ⟨rfl, rfl⟩
  | ⟨pattern, body, span⟩ :: rest =>
    (desugarPattern_lists scrutinee span pattern).bind fun _ _ hpattern =>
      (desugarExpr_lists body).bind fun _ _ hbody => (desugarArms_lists scrutinee rest).map
        fun _ _ hrest => hpattern.append (hbody.append hrest)

end

end Steps

/-! ### Bodies -/

/-- The locals of a body, at each of their occurrences. -/
def bodyVars (body : Body) : List Local :=
  body.params ++ blockVars body.block

/-- The marks of a function, at the occurrences of its locals in its core form. -/
def functionMarks (params : List (Source.Param Nat Span)) (block : LoadedBlock) : List Mark :=
  params.map (fun param => .binding param.binding param.mutable false) ++ blockMarks block

/-- The locals of a body are numbered without a gap and rename what occurs in the source: a local
stands for one binding, or it is added once and stands for none. -/
structure NumberedLocals (body : Body) (marks : List Mark) : Prop where
  length_eq : (bodyVars body).length = marks.length
  dense : ∀ var : Local, var.id < body.locals.size ↔ var ∈ bodyVars body
  same_iff : ∀ occ ∈ (bodyVars body).zip marks, ∀ occ' ∈ (bodyVars body).zip marks, ∀ id,
    occ.2.binding? = some id → (occ.1 = occ'.1 ↔ occ'.2.binding? = some id)
  additions_nodup : (additions ((bodyVars body).zip marks)).Nodup
  declares_iff : ∀ var trait, (∃ decl, body.local? var = some decl ∧ declares decl trait = true) ↔
    ∃ occ ∈ (bodyVars body).zip marks, occ.1 = var ∧ occ.2.tells trait = true

lemma StandsFor.lt {locals : Locals} {occ : Local × Mark} (h : StandsFor locals occ)
    (hok : LocalsOk locals) : occ.1.id < locals.decls.size := by
  unfold StandsFor at h
  split at h
  · exact hok.declared _ h
  · exact h.1

lemma StandsFor.same_iff {locals : Locals} {occ occ' : Local × Mark} {id : Nat}
    (h : StandsFor locals occ) (h' : StandsFor locals occ') (hok : LocalsOk locals)
    (hid : occ.2.binding? = some id) : occ.1 = occ'.1 ↔ occ'.2.binding? = some id := by
  simp only [StandsFor, hid] at h
  unfold StandsFor at h'
  split at h'
  next id' hid' =>
    rw [hid', Option.some.injEq]
    exact (hok.matched _ h _ h').symm.trans eq_comm
  next hnone =>
    rw [hnone]
    exact iff_of_false (h'.2 _ h) (by simp)

lemma Allots.numbered {body : Body} {marks : List Mark} {locals : Locals}
    {occs : List (Local × Mark)} (h : Allots {} locals occs) (hlocals : body.locals = locals.decls)
    (hocc : Matches (bodyVars body) marks occs) : NumberedLocals body marks := by
  have hzip : (bodyVars body).zip marks = occs := by
    rw [← hocc.1, ← hocc.2, zip_map', map_id']
  refine ⟨?_, fun var => ⟨fun hlt => ?_, fun hvar => ?_⟩, ?_, ?_, fun var trait => ?_⟩
  · rw [← hocc.1, ← hocc.2, length_map, length_map]
  · rw [hlocals] at hlt
    obtain ⟨⟨⟨id⟩, mark⟩, hmem, rfl⟩ := h.dense var.id (Nat.zero_le _) hlt
    exact hocc.1 ▸ mem_map_of_mem hmem
  · rw [← hocc.1] at hvar
    obtain ⟨occ, hmem, rfl⟩ := mem_map.mp hvar
    exact hlocals ▸ (h.stands occ hmem).lt h.ok
  · rw [hzip]
    exact fun occ hmem occ' hmem' id hid => (h.stands occ hmem).same_iff (h.stands occ' hmem') h.ok hid
  · exact hzip ▸ h.additions_nodup
  · rw [hzip, Body.local?, hlocals]
    refine (h.told_iff trait var).trans (or_iff_right ?_)
    rintro ⟨decl, hdecl, -⟩
    cases hdecl

lemma params_lists (params : List (Source.Param Nat Span)) :
    Lists (params.mapM fun param =>
        bindLocal param.binding { name := param.name, ty := param.ty, mutable := param.mutable })
      fun vars => Matches vars
        (params.map fun param => .binding param.binding param.mutable false) := by
  induction params with
  | nil => exact .pure ⟨rfl, rfl⟩
  | cons param params ih =>
    rw [mapM_cons]
    refine (bindLocal_lists _ _).bind fun var _ hvar => ih.map fun vars _ hvars => ?_
    rw [hvar]
    exact (Matches.single var _).append hvars

/-- Desugaring a function numbers its locals from zero on, injectively. An occurrence gets the local
of its binding and no other, what is added gets a local of its own, and a local is mutable or
captured exactly if the source tells so of its binding. -/
theorem desugar_numbers_locals (types : TypeTable) (item : Source.LoadedItem) (body : Body)
    (h : desugar types item = .ok (some body)) :
    ∃ params ret block, item.kind = .function params ret (some block) ∧
      NumberedLocals body (functionMarks params block) := by
  rw [desugar] at h
  split at h
  next params ret block hkind =>
    refine ⟨params, ret, block, hkind, ?_⟩
    rcases hrun : (desugarFunction types params block).run {} with e | ⟨⟨params', block'⟩, locals⟩
    · rw [hrun] at h
      cases h
    · rw [hrun] at h
      cases h
      have hlists : Lists (desugarFunction types params block) fun result =>
          Matches (result.1 ++ blockVars result.2) (functionMarks params block) :=
        (params_lists params).bind fun _ _ hparams => (desugarBlock_lists block).map
          fun _ _ hblock => hparams.append hblock
      obtain ⟨occs, hmatches, hallots⟩ := hlists ⟨by simp, by simp⟩ hrun
      exact hallots.numbered rfl hmatches
  next => cases h

theorem sumBelow_numbers_locals :
    ∃ body, desugar TypeTable.initial sumBelow = .ok (some body) ∧
      ∃ params ret block, sumBelow.kind = .function params ret (some block) ∧
        NumberedLocals body (functionMarks params block) :=
  ⟨_, rfl, desugar_numbers_locals TypeTable.initial sumBelow _ rfl⟩

end SsaLowering.Proofs
