import SsaLowering.Proofs.ReadingBack

/-!
# Which trees are loaded

Loading checks a tree while it turns it into a program, one part after the other. No part is left
out: a tree is loaded exactly if its names are distinct, every data type that is named anywhere in
it is declared, and no span in it has its bounds out of order.
-/

namespace SsaLowering.Proofs

open Source List

/-! ### What a tree mentions -/

/-- A data type that is named, or a span that is given. -/
inductive Mention where
  | data (name : String)
  | span (start stop : Nat)

def typeMentions : TypeName → List Mention
  | .data name => [.data name]
  | .result ok err => typeMentions ok ++ typeMentions err
  | _ => []

def spanMentions : Bounds → List Mention
  | none => []
  | some (start, stop) => [.span start stop]

mutual

def blockMentions : Source.Block TypeName Bounds Unit → List Mention
  | ⟨_, span, stmts, none⟩ => stmtsMentions stmts ++ spanMentions span
  | ⟨_, span, stmts, some tail⟩ => stmtsMentions stmts ++ (exprMentions tail ++ spanMentions span)

def stmtsMentions : List (Stmt TypeName Bounds Unit) → List Mention
  | [] => []
  | stmt :: rest => stmtMentions stmt ++ stmtsMentions rest

def stmtMentions : Stmt TypeName Bounds Unit → List Mention
  | ⟨_, span, kind⟩ => stmtKindMentions kind ++ spanMentions span

def stmtKindMentions : StmtKind TypeName Bounds Unit → List Mention
  | .letVar _ _ _ _ ty none => typeMentions ty
  | .letVar _ _ _ _ ty (some init) => typeMentions ty ++ exprMentions init
  | .assign target _ value => exprMentions target ++ exprMentions value
  | .expr value | .ret (some value) => exprMentions value
  | .ifElse cond body none | .whileLoop cond body => exprMentions cond ++ blockMentions body
  | .ifElse cond body (some (.block other)) =>
    exprMentions cond ++ (blockMentions body ++ blockMentions other)
  | .ifElse cond body (some (.chain stmt)) =>
    exprMentions cond ++ (blockMentions body ++ stmtMentions stmt)
  | .loop body => blockMentions body
  | .forRange _ _ first last _ body =>
    exprMentions first ++ (exprMentions last ++ blockMentions body)
  | .ret none | .breakLoop | .continueLoop => []

def exprMentions : Source.Expr TypeName Bounds Unit → List Mention
  | ⟨_, span, ty, kind⟩ => exprKindMentions kind ++ (typeMentions ty ++ spanMentions span)

def exprKindMentions : ExprKind TypeName Bounds Unit → List Mention
  | .literal _ | .localVar _ _ | .globalVar _ => []
  | .unary _ value | .cast value | .field value _ | .ok value | .err value | .propagate value =>
    exprMentions value
  | .binary _ lhs rhs => exprMentions lhs ++ exprMentions rhs
  | .call _ args => exprsMentions args
  | .data inits => initsMentions inits
  | .ifElse cond body none => exprMentions cond ++ blockMentions body
  | .ifElse cond body (some other) =>
    exprMentions cond ++ (blockMentions body ++ exprMentions other)
  | .matchOn scrutinee arms => exprMentions scrutinee ++ armsMentions arms
  | .block body => blockMentions body

def exprsMentions : List (Source.Expr TypeName Bounds Unit) → List Mention
  | [] => []
  | expr :: rest => exprMentions expr ++ exprsMentions rest

def initsMentions : List (FieldInit TypeName Bounds Unit) → List Mention
  | [] => []
  | ⟨_, value⟩ :: rest => exprMentions value ++ initsMentions rest

def armsMentions : List (Arm TypeName Bounds Unit) → List Mention
  | [] => []
  | ⟨_, body, span⟩ :: rest => exprMentions body ++ (spanMentions span ++ armsMentions rest)

end

def paramMentions (param : Param TypeName Bounds) : List Mention :=
  typeMentions param.ty ++ spanMentions param.span

def itemKindMentions : ItemKind TypeName Bounds Unit → List Mention
  | .function params ret body =>
    params.flatMap paramMentions ++ (typeMentions ret ++ body.toList.flatMap blockMentions)
  | .global ty _ init => typeMentions ty ++ init.toList.flatMap exprMentions

def itemMentions (item : Item TypeName Bounds Unit) : List Mention :=
  itemKindMentions item.kind ++ spanMentions item.span

def treeMentions (tree : Tree) : List Mention :=
  (tree.datas.flatMap fun data => data.fields.flatMap fun field => typeMentions field.2) ++
    tree.items.flatMap itemMentions

/-! ### What a step of loading needs -/

/-- A mention is in order if the data type is among the declared ones, or the span not reversed. -/
def Mention.InOrder (declared : List String) : Mention → Prop
  | .data name => name ∈ declared
  | .span start stop => start ≤ stop

lemma isSome_lookup_iff {datas : DataNames} {name : String} :
    (datas.lookup name).isSome ↔ name ∈ datas.map Prod.fst := by
  rw [lookup_isSome_iff, mem_map]
  exact exists_congr fun p => and_congr_right fun _ => beq_iff_eq.trans eq_comm

/-- A step of loading succeeds exactly if a condition holds, whatever was loaded before. -/
def Passes {α : Type} (step : LoadM α) (P : Prop) : Prop :=
  ∀ s, (∃ result, step.run s = .ok result) ↔ P

lemma Passes.bind {α β : Type} {step : LoadM α} {next : α → LoadM β} {P Q : Prop}
    (h : Passes step P) (hnext : ∀ x, Passes (next x) Q) : Passes (step >>= next) (P ∧ Q) := by
  intro s
  rw [← h s, StateT.run_bind]
  constructor
  · rintro ⟨result, hrun⟩
    obtain ⟨⟨x, s'⟩, hfirst, hsecond⟩ := bind_eq_ok_iff.mp hrun
    exact ⟨⟨_, hfirst⟩, (hnext x s').mp ⟨result, hsecond⟩⟩
  · rintro ⟨⟨⟨x, s'⟩, hfirst⟩, hmore⟩
    obtain ⟨result, hsecond⟩ := (hnext x s').mpr hmore
    exact ⟨result, bind_eq_ok_iff.mpr ⟨_, hfirst, hsecond⟩⟩

lemma Passes.free {α β : Type} {step : LoadM α} {next : α → LoadM β} {P : Prop}
    (h : ∀ s, ∃ result, step.run s = .ok result) (hnext : ∀ x, Passes (next x) P) :
    Passes (step >>= next) P := by
  rw [← true_and P]
  exact Passes.bind (fun s => iff_of_true (h s) trivial) hnext

lemma Passes.last {α β : Type} {step : LoadM α} {next : α → LoadM β} {P : Prop} (h : Passes step P)
    (hnext : ∀ x s, ∃ result, (next x).run s = .ok result := by exact fun _ _ => ⟨_, rfl⟩) :
    Passes (step >>= next) P := by
  rw [← and_true P]
  exact h.bind fun x s => iff_of_true (hnext x s) trivial

/-- A step of loading needs some mentions to be in order, and nothing else. -/
def Needs {α : Type} (datas : DataNames) (step : LoadM α) (mentions : List Mention) : Prop :=
  Passes step (∀ m ∈ mentions, m.InOrder (datas.map Prod.fst))

namespace Needs

variable {α β : Type} {datas : DataNames} {step : LoadM α} {mentions more : List Mention}

lemma pure {x : α} : Needs datas (Pure.pure x) [] :=
  fun s => iff_of_true ⟨(x, s), rfl⟩ (by simp)

lemma bind {next : α → LoadM β} (h : Needs datas step mentions)
    (hnext : ∀ x, Needs datas (next x) more) : Needs datas (step >>= next) (mentions ++ more) := by
  rw [Needs, forall_mem_append]
  exact Passes.bind h hnext

lemma map {f : α → β} (h : Needs datas step mentions) : Needs datas (f <$> step) mentions := by
  rw [map_eq_pure_bind]
  exact h.last

lemma mapM {step : α → LoadM β} {f : α → List Mention} (h : ∀ x, Needs datas (step x) (f x))
    (xs : List α) : Needs datas (xs.mapM step) (xs.flatMap f) := by
  induction xs with
  | nil => exact .pure
  | cons x xs ih =>
    rw [mapM_cons]
    exact (h x).bind fun _ => ih.last

lemma optional {step : α → LoadM β} {f : α → List Mention} (h : ∀ x, Needs datas (step x) (f x))
    (x : Option α) : Needs datas (x.mapM step) (x.toList.flatMap f) := by
  cases x with
  | none => exact .pure
  | some x =>
    rw [Option.mapM_some, Option.toList_some, flatMap_singleton]
    exact (h x).map

end Needs

section Loading

variable (datas : DataNames)

lemma loadSpan_needs (bounds : Bounds) : Needs datas (loadSpan bounds) (spanMentions bounds) := by
  cases bounds with
  | none => exact .pure
  | some ends =>
    obtain ⟨start, stop⟩ := ends
    intro s
    rw [loadSpan, spanMentions, forall_mem_singleton, Mention.InOrder]
    cases hspan : Span.ofBounds? start stop with
    | none =>
      exact iff_of_false (by rintro ⟨_, ⟨⟩⟩) (Nat.not_le.mpr (Span.ofBounds?_eq_none_iff.mp hspan))
    | some span =>
      obtain ⟨rfl, rfl⟩ := Span.ofBounds?_eq_some_iff.mp hspan
      exact iff_of_true ⟨(span, s), rfl⟩ span.ordered

lemma loadType_needs (ty : TypeName) : Needs datas (loadType datas ty) (typeMentions ty) := by
  induction ty with
  | data name =>
    intro s
    rw [loadType, typeMentions, forall_mem_singleton, Mention.InOrder, ← isSome_lookup_iff]
    cases datas.lookup name with
    | none => exact iff_of_false (by rintro ⟨_, ⟨⟩⟩) (by simp)
    | some id => exact iff_of_true ⟨(id, s), rfl⟩ rfl
  | result ok err ihok iherr =>
    exact ihok.bind fun _ => iherr.last
  | _ => exact .pure

/-- A node is numbered behind its parts and its span. -/
lemma node_needs {α : Type} (bounds : Bounds) (f : Span → Nat → α) : Needs datas
    (do let span ← loadSpan bounds; return f span (← nextNode)) (spanMentions bounds) :=
  (loadSpan_needs datas bounds).last

mutual

theorem loadBlock_needs : ∀ block, Needs datas (loadBlock datas block) (blockMentions block)
  | ⟨_, bounds, stmts, none⟩ => (loadStmts_needs stmts).bind fun _ =>
    Passes.free (fun _ => ⟨_, rfl⟩) fun _ => node_needs datas bounds _
  | ⟨_, bounds, stmts, some tail⟩ => (loadStmts_needs stmts).bind fun _ =>
    (loadExpr_needs tail).map.bind fun _ => node_needs datas bounds _

theorem loadStmts_needs : ∀ stmts, Needs datas (loadStmts datas stmts) (stmtsMentions stmts)
  | [] => .pure
  | stmt :: rest => (loadStmt_needs stmt).bind fun _ => (loadStmts_needs rest).last

theorem loadStmt_needs : ∀ stmt, Needs datas (loadStmt datas stmt) (stmtMentions stmt)
  | ⟨_, bounds, kind⟩ => (loadStmtKind_needs kind).bind fun _ => node_needs datas bounds _

theorem loadStmtKind_needs : ∀ kind, Needs datas (loadStmtKind datas kind) (stmtKindMentions kind)
  | .letVar _ _ _ _ ty none => (loadType_needs datas ty).last
  | .letVar _ _ _ _ ty (some init) => (loadType_needs datas ty).bind fun _ =>
    (loadExpr_needs init).map.last
  | .assign target _ value => (loadExpr_needs target).bind fun _ => (loadExpr_needs value).last
  | .expr value | .ret (some value) => (loadExpr_needs value).last
  | .ifElse cond body none | .whileLoop cond body => (loadExpr_needs cond).bind fun _ =>
    (loadBlock_needs body).last
  | .ifElse cond body (some (.block other)) => (loadExpr_needs cond).bind fun _ =>
    (loadBlock_needs body).bind fun _ => (loadBlock_needs other).map.last
  | .ifElse cond body (some (.chain stmt)) => (loadExpr_needs cond).bind fun _ =>
    (loadBlock_needs body).bind fun _ => (loadStmt_needs stmt).map.last
  | .loop body => (loadBlock_needs body).last
  | .forRange _ _ first last _ body => (loadExpr_needs first).bind fun _ =>
    (loadExpr_needs last).bind fun _ => (loadBlock_needs body).last
  | .ret none | .breakLoop | .continueLoop => .pure

theorem loadExpr_needs : ∀ expr, Needs datas (loadExpr datas expr) (exprMentions expr)
  | ⟨_, bounds, ty, kind⟩ => (loadExprKind_needs kind).bind fun _ =>
    (loadType_needs datas ty).bind fun _ => node_needs datas bounds _

theorem loadExprKind_needs : ∀ kind, Needs datas (loadExprKind datas kind) (exprKindMentions kind)
  | .literal _ | .localVar _ _ | .globalVar _ => .pure
  | .unary _ value | .cast value | .field value _ | .ok value | .err value | .propagate value =>
    (loadExpr_needs value).last
  | .binary _ lhs rhs => (loadExpr_needs lhs).bind fun _ => (loadExpr_needs rhs).last
  | .call _ args => (loadExprs_needs args).last
  | .data inits => (loadInits_needs inits).last
  | .ifElse cond body none => (loadExpr_needs cond).bind fun _ => (loadBlock_needs body).last
  | .ifElse cond body (some other) => (loadExpr_needs cond).bind fun _ =>
    (loadBlock_needs body).bind fun _ => (loadExpr_needs other).map.last
  | .matchOn scrutinee arms => (loadExpr_needs scrutinee).bind fun _ => (loadArms_needs arms).last
  | .block body => (loadBlock_needs body).last

theorem loadExprs_needs : ∀ exprs, Needs datas (loadExprs datas exprs) (exprsMentions exprs)
  | [] => .pure
  | expr :: rest => (loadExpr_needs expr).bind fun _ => (loadExprs_needs rest).last

theorem loadInits_needs : ∀ inits, Needs datas (loadInits datas inits) (initsMentions inits)
  | [] => .pure
  | ⟨_, value⟩ :: rest => (loadExpr_needs value).bind fun _ => (loadInits_needs rest).last

theorem loadArms_needs : ∀ arms, Needs datas (loadArms datas arms) (armsMentions arms)
  | [] => .pure
  | ⟨_, body, bounds⟩ :: rest => (loadExpr_needs body).bind fun _ =>
    (loadSpan_needs datas bounds).bind fun _ => (loadArms_needs rest).last

end

lemma loadItemKind_needs (kind : ItemKind TypeName Bounds Unit) :
    Needs datas (loadItemKind datas kind) (itemKindMentions kind) := by
  cases kind with
  | function params ret body =>
    refine (Needs.mapM (fun param => ?_) params).bind fun _ =>
      (loadType_needs datas ret).bind fun _ => (Needs.optional (loadBlock_needs datas) body).last
    exact (loadType_needs datas param.ty).bind fun _ => (loadSpan_needs datas param.span).last
  | global ty mutable init =>
    exact (loadType_needs datas ty).bind fun _ => (Needs.optional (loadExpr_needs datas) init).last

lemma loadItems_passes {seen : List String} (hseen : seen.Nodup)
    (items : List (Item TypeName Bounds Unit)) : Passes (loadItems datas seen items)
      ((items.map Item.name ++ seen).Nodup ∧
        ∀ m ∈ items.flatMap itemMentions, m.InOrder (datas.map Prod.fst)) := by
  induction items generalizing seen with
  | nil => exact fun s => iff_of_true ⟨([], s), rfl⟩ ⟨hseen, by simp⟩
  | cons item rest ih =>
    rw [loadItems]
    split_ifs with hmem
    · refine fun s => iff_of_false (by rintro ⟨_, ⟨⟩⟩) fun h => ?_
      exact (nodup_cons.mp h.1).1 (mem_append_right _ hmem)
    · rw [map_cons, cons_append, ← nodup_middle, flatMap_cons,
        forall_mem_append, and_left_comm, itemMentions, forall_mem_append, and_assoc]
      refine Passes.bind (loadItemKind_needs datas item.kind) fun _ =>
        Passes.bind (loadSpan_needs datas item.span) fun _ => .free (fun _ => ⟨_, rfl⟩) fun _ => ?_
      exact (ih (nodup_cons.mpr ⟨hmem, hseen⟩)).last

/-- Data types are declared exactly if the names are distinct, and then known by them. -/
lemma declareDatas_iff {datas : DataNames} (hnodup : (datas.map Prod.fst).Nodup)
    (decls : List DataDecl) (s : LoadState) :
    ((∃ result, (declareDatas datas decls).run s = .ok result) ↔
      (datas.map Prod.fst ++ decls.map DataDecl.name).Nodup) ∧
    ∀ result s', (declareDatas datas decls).run s = .ok (result, s') →
      result.map Prod.fst = datas.map Prod.fst ++ decls.map DataDecl.name := by
  induction decls generalizing datas s with
  | nil =>
    rw [map_nil, append_nil]
    refine ⟨iff_of_true ⟨(datas, s), rfl⟩ hnodup, ?_⟩
    rintro result s' ⟨⟩
    rfl
  | cons decl rest ih =>
    rw [declareDatas, map_cons]
    split_ifs with hknown
    · refine ⟨iff_of_false (by rintro ⟨_, ⟨⟩⟩) fun h => ?_, by rintro _ _ ⟨⟩⟩
      exact (nodup_append.mp h).2.2 _ (isSome_lookup_iff.mp hknown) _ mem_cons_self rfl
    · let id := (s.types.declareData decl.name).1
      have hnodup' : ((datas ++ [(decl.name, id)]).map Prod.fst).Nodup := by
        rw [map_append, nodup_append]
        refine ⟨hnodup, nodup_singleton _, fun name hname other hother heq => hknown ?_⟩
        obtain rfl := heq.trans (mem_singleton.mp hother)
        exact isSome_lookup_iff.mpr hname
      have hrest := ih hnodup' { s with types := (s.types.declareData decl.name).2 }
      rw [map_append, append_assoc] at hrest
      exact hrest

lemma defineDatas_needs (id : Nat) (decls : List DataDecl) : Needs datas
    (defineDatas datas id decls)
    (decls.flatMap fun data => data.fields.flatMap fun field => typeMentions field.2) := by
  induction decls generalizing id with
  | nil => exact .pure
  | cons decl rest ih =>
    rw [defineDatas, flatMap_cons]
    refine (Needs.mapM (fun field => ?_) decl.fields).bind fun fields =>
      Passes.free (fun _ => ⟨_, rfl⟩) fun _ => ih _
    exact (loadType_needs datas field.2).last

end Loading

/-- A tree is loaded exactly if its data types and its items have distinct names, every data type
that it names anywhere is declared, and no span anywhere in it is reversed. -/
theorem load_eq_ok_iff (tree : Tree) : (∃ program, tree.load = .ok program) ↔
    (tree.datas.map DataDecl.name).Nodup ∧ (tree.items.map Item.name).Nodup ∧
      ∀ m ∈ treeMentions tree, m.InOrder (tree.datas.map DataDecl.name) := by
  obtain ⟨hdeclare, hnames⟩ := @declareDatas_iff [] nodup_nil tree.datas { types := .initial }
  have hrest (datas : DataNames) : Passes
      (do defineDatas datas 0 tree.datas; loadItems datas [] tree.items)
      ((tree.items.map Item.name).Nodup ∧
        ∀ m ∈ treeMentions tree, m.InOrder (datas.map Prod.fst)) := by
    have hitems := loadItems_passes datas nodup_nil tree.items
    rw [append_nil] at hitems
    rw [treeMentions, forall_mem_append, and_left_comm]
    exact Passes.bind (defineDatas_needs datas 0 tree.datas) fun _ => hitems
  rw [map_nil, nil_append] at hdeclare hnames
  constructor
  · rintro ⟨program, h⟩
    obtain ⟨⟨items, state⟩, hrun, -⟩ := bind_eq_ok_iff.mp h
    rw [loadTree, StateT.run_bind] at hrun
    obtain ⟨⟨datas, s⟩, hdeclared, hrun⟩ := bind_eq_ok_iff.mp hrun
    rw [← hnames datas s hdeclared]
    exact ⟨hnames datas s hdeclared ▸ hdeclare.mp ⟨_, hdeclared⟩, (hrest datas s).mp ⟨_, hrun⟩⟩
  · rintro ⟨hnodup, hothers⟩
    obtain ⟨⟨datas, s⟩, hdeclared⟩ := hdeclare.mpr hnodup
    obtain ⟨⟨items, state⟩, hrun⟩ := (hrest datas s).mpr (hnames datas s hdeclared ▸ hothers)
    exact ⟨_, bind_eq_ok_iff.mpr ⟨(items, state),
      by rw [loadTree, StateT.run_bind]; exact bind_eq_ok_iff.mpr ⟨_, hdeclared, hrun⟩, rfl⟩⟩

end SsaLowering.Proofs
