import SsaLowering.Proofs.LoadedTypes
import SsaLowering.Proofs.RowForest

/-!
# Reading a program back

Nothing is lost when a tree is loaded. From the tables of the program and its static types the tree
can be read back: references are followed and types are named. What is read is the tree as it was
written, except that a missing span is read as the empty one at zero.
-/

namespace SsaLowering.Proofs

open Source List

variable {types : TypeTable} {datas : DataNames} {γ α : Type} {id : Nat}

/-! ### Reading -/

/-- The name of a type, to some depth of nesting. -/
def nameTo (types : TypeTable) : Nat → Nat → Option TypeName
  | 0, _ => none
  | depth + 1, id =>
    match types.get? id with
    | none => none
    | some .unit => some .unit
    | some .bool => some .bool
    | some .int => some .int
    | some .float => some .float
    | some .str => some .str
    | some .never => some .never
    | some (.data data) => (types.data? data).map fun data => .data data.name
    | some (.result ok err) => do
      return .result (← nameTo types depth ok) (← nameTo types depth err)

def nameOf (types : TypeTable) (id : Nat) : Option TypeName :=
  nameTo types types.size id

def boundsOf (span : Span) : Bounds :=
  some (span.start, span.stop)

/-- How the blocks, statements and expressions at positions of the tables are read. -/
structure Readers where
  block : Nat → Option (Source.Block TypeName Bounds Unit)
  stmt : Nat → Option (Stmt TypeName Bounds Unit)
  expr : Nat → Option (Source.Expr TypeName Bounds Unit)

namespace Readers

variable (types : TypeTable) (readers : Readers)

def otherwise : ElseRow → Option (Else TypeName Bounds Unit)
  | .block body => return .block (← readers.block body)
  | .chain stmt => return .chain (← readers.stmt stmt)

def stmtKind : StmtRow → Option (StmtKind TypeName Bounds Unit)
  | .letVar binding name mutable captured ty init =>
    return .letVar binding name mutable captured (← nameOf types ty) (← init.mapM readers.expr)
  | .assign target op value => return .assign (← readers.expr target) op (← readers.expr value)
  | .expr value => return .expr (← readers.expr value)
  | .ret value => return .ret (← value.mapM readers.expr)
  | .ifElse cond body otherwise =>
    return .ifElse (← readers.expr cond) (← readers.block body)
      (← otherwise.mapM readers.otherwise)
  | .whileLoop cond body => return .whileLoop (← readers.expr cond) (← readers.block body)
  | .loop body => return .loop (← readers.block body)
  | .forRange binding name first last inclusive body =>
    return .forRange binding name (← readers.expr first) (← readers.expr last) inclusive
      (← readers.block body)
  | .breakLoop => some .breakLoop
  | .continueLoop => some .continueLoop

def fieldInit (init : String × Nat) : Option (FieldInit TypeName Bounds Unit) :=
  return ⟨init.1, ← readers.expr init.2⟩

def arm (row : ArmRow) : Option (Arm TypeName Bounds Unit) :=
  return ⟨row.pattern, ← readers.expr row.body, boundsOf row.span⟩

def exprKind : ExprRow → Option (ExprKind TypeName Bounds Unit)
  | .literal value => some (.literal value)
  | .localVar binding name => some (.localVar binding name)
  | .globalVar name => some (.globalVar name)
  | .binary op lhs rhs => return .binary op (← readers.expr lhs) (← readers.expr rhs)
  | .unary op operand => return .unary op (← readers.expr operand)
  | .cast operand => return .cast (← readers.expr operand)
  | .call callee args => return .call callee (← args.mapM readers.expr)
  | .field base name => return .field (← readers.expr base) name
  | .data inits => return .data (← inits.mapM readers.fieldInit)
  | .ok value => return .ok (← readers.expr value)
  | .err value => return .err (← readers.expr value)
  | .ifElse cond body otherwise =>
    return .ifElse (← readers.expr cond) (← readers.block body) (← otherwise.mapM readers.expr)
  | .matchOn scrutinee arms => return .matchOn (← readers.expr scrutinee) (← arms.mapM readers.arm)
  | .block body => return .block (← readers.block body)
  | .propagate value => return .propagate (← readers.expr value)

def param (row : Param Nat Span) : Option (Param TypeName Bounds) :=
  return ⟨row.binding, row.name, ← nameOf types row.ty, row.mutable, boundsOf row.span⟩

def itemKind : ItemRow → Option (ItemKind TypeName Bounds Unit)
  | .function params ret body =>
    return .function (← params.mapM (param types)) (← nameOf types ret) (← body.mapM readers.block)
  | .global ty mutable init =>
    return .global (← nameOf types ty) mutable (← init.mapM readers.expr)

end Readers

/-- Reads what stands in the tables, to some depth of nesting. -/
def readersTo (types : TypeTable) (tables : Tables) : Nat → Readers
  | 0 => ⟨fun _ => none, fun _ => none, fun _ => none⟩
  | depth + 1 =>
    let parts := readersTo types tables depth
    { block := fun position => do
        let row ← tables.blocks[position]?
        return ⟨(), boundsOf row.span, ← row.kind.stmts.mapM parts.stmt,
          ← row.kind.tail.mapM parts.expr⟩
      stmt := fun position => do
        let row ← tables.stmts[position]?
        return ⟨(), boundsOf row.span, ← parts.stmtKind types row.kind⟩
      expr := fun position => do
        let row ← tables.exprs[position]?
        return ⟨(), boundsOf row.span, ← nameOf types row.kind.ty, ← parts.exprKind row.kind.kind⟩ }

/-- How many rows there are; no tree in the tables is deeper. -/
def rowsIn (tables : Tables) : Nat :=
  tables.blocks.size + tables.stmts.size + tables.exprs.size

def readItem (types : TypeTable) (readers : Readers) (entry : LoadedItem × Row ItemRow) :
    Option (Item TypeName Bounds Unit) :=
  return ⟨(), boundsOf entry.2.span, entry.1.name, ← readers.itemKind types entry.2.kind⟩

def readDataField (types : TypeTable) (field : String × Nat) : Option (String × TypeName) :=
  return (field.1, ← nameOf types field.2)

def readData (types : TypeTable) (data : DataType) : Option DataDecl :=
  return ⟨data.name, ← data.fields.mapM (readDataField types)⟩

/-- Reads a whole program. Nothing is nested deeper than there are rows. -/
def readBack (prog : Program) : Option Tree := do
  let (items, tables) := prog.layOut
  let readers := readersTo prog.types tables (rowsIn tables)
  return { name := prog.name
           datas := ← prog.types.datas.toList.mapM (readData prog.types)
           items := ← (prog.items.zip items).mapM (readItem prog.types readers) }

/-! ### Spans that are missing -/

def withBounds (bounds : Bounds) : Bounds :=
  some (bounds.getD (0, 0))

mutual

def spannedBlock : Source.Block TypeName Bounds Unit → Source.Block TypeName Bounds Unit
  | ⟨node, span, stmts, none⟩ => ⟨node, withBounds span, spannedStmts stmts, none⟩
  | ⟨node, span, stmts, some tail⟩ =>
    ⟨node, withBounds span, spannedStmts stmts, some (spannedExpr tail)⟩

def spannedStmts : List (Stmt TypeName Bounds Unit) → List (Stmt TypeName Bounds Unit)
  | [] => []
  | stmt :: rest => spannedStmt stmt :: spannedStmts rest

def spannedStmt : Stmt TypeName Bounds Unit → Stmt TypeName Bounds Unit
  | ⟨node, span, kind⟩ => ⟨node, withBounds span, spannedStmtKind kind⟩

def spannedStmtKind : StmtKind TypeName Bounds Unit → StmtKind TypeName Bounds Unit
  | .letVar binding name mutable captured ty none => .letVar binding name mutable captured ty none
  | .letVar binding name mutable captured ty (some init) =>
    .letVar binding name mutable captured ty (some (spannedExpr init))
  | .assign target op value => .assign (spannedExpr target) op (spannedExpr value)
  | .expr value => .expr (spannedExpr value)
  | .ret none => .ret none
  | .ret (some value) => .ret (some (spannedExpr value))
  | .ifElse cond body none => .ifElse (spannedExpr cond) (spannedBlock body) none
  | .ifElse cond body (some (.block other)) =>
    .ifElse (spannedExpr cond) (spannedBlock body) (some (.block (spannedBlock other)))
  | .ifElse cond body (some (.chain stmt)) =>
    .ifElse (spannedExpr cond) (spannedBlock body) (some (.chain (spannedStmt stmt)))
  | .whileLoop cond body => .whileLoop (spannedExpr cond) (spannedBlock body)
  | .loop body => .loop (spannedBlock body)
  | .forRange binding name first last inclusive body =>
    .forRange binding name (spannedExpr first) (spannedExpr last) inclusive (spannedBlock body)
  | .breakLoop => .breakLoop
  | .continueLoop => .continueLoop

def spannedExpr : Source.Expr TypeName Bounds Unit → Source.Expr TypeName Bounds Unit
  | ⟨node, span, ty, kind⟩ => ⟨node, withBounds span, ty, spannedExprKind kind⟩

def spannedExprKind : ExprKind TypeName Bounds Unit → ExprKind TypeName Bounds Unit
  | .literal value => .literal value
  | .localVar binding name => .localVar binding name
  | .globalVar name => .globalVar name
  | .binary op lhs rhs => .binary op (spannedExpr lhs) (spannedExpr rhs)
  | .unary op operand => .unary op (spannedExpr operand)
  | .cast operand => .cast (spannedExpr operand)
  | .call callee args => .call callee (spannedExprs args)
  | .field base name => .field (spannedExpr base) name
  | .data inits => .data (spannedInits inits)
  | .ok value => .ok (spannedExpr value)
  | .err value => .err (spannedExpr value)
  | .ifElse cond body none => .ifElse (spannedExpr cond) (spannedBlock body) none
  | .ifElse cond body (some other) =>
    .ifElse (spannedExpr cond) (spannedBlock body) (some (spannedExpr other))
  | .matchOn scrutinee arms => .matchOn (spannedExpr scrutinee) (spannedArms arms)
  | .block body => .block (spannedBlock body)
  | .propagate value => .propagate (spannedExpr value)

def spannedExprs : List (Source.Expr TypeName Bounds Unit) →
    List (Source.Expr TypeName Bounds Unit)
  | [] => []
  | expr :: rest => spannedExpr expr :: spannedExprs rest

def spannedInits : List (FieldInit TypeName Bounds Unit) → List (FieldInit TypeName Bounds Unit)
  | [] => []
  | ⟨name, value⟩ :: rest => ⟨name, spannedExpr value⟩ :: spannedInits rest

def spannedArms : List (Arm TypeName Bounds Unit) → List (Arm TypeName Bounds Unit)
  | [] => []
  | ⟨pattern, body, span⟩ :: rest => ⟨pattern, spannedExpr body, withBounds span⟩ :: spannedArms rest

end

def spannedParam (param : Param TypeName Bounds) : Param TypeName Bounds :=
  { param with span := withBounds param.span }

def spannedItemKind : ItemKind TypeName Bounds Unit → ItemKind TypeName Bounds Unit
  | .function params ret body => .function (params.map spannedParam) ret (body.map spannedBlock)
  | .global ty mutable init => .global ty mutable (init.map spannedExpr)

def spannedItem (item : Item TypeName Bounds Unit) : Item TypeName Bounds Unit :=
  { item with span := withBounds item.span, kind := spannedItemKind item.kind }

/-- The tree with a span wherever one may be left out. -/
def spannedTree (tree : Tree) : Tree :=
  { tree with items := tree.items.map spannedItem }

/-! ### Steps of loading -/

/-- A table that holds the types of another one where they are, and data types of the same names. -/
structure Enlarges (types wider : TypeTable) : Prop where
  get? : ∀ id ty, types.get? id = some ty → wider.get? id = some ty
  names : ∀ id data, types.data? id = some data →
    ∃ data', wider.data? id = some data' ∧ data'.name = data.name

namespace Enlarges

lemma refl (types : TypeTable) : Enlarges types types :=
  ⟨fun _ _ h => h, fun _ data h => ⟨data, h, rfl⟩⟩

lemma trans {a b c : TypeTable} (hab : Enlarges a b) (hbc : Enlarges b c) : Enlarges a c where
  get? id ty h := hbc.get? id ty (hab.get? id ty h)
  names id data h := by
    obtain ⟨data', hdata', hname'⟩ := hab.names id data h
    obtain ⟨data'', hdata'', hname''⟩ := hbc.names id data' hdata'
    exact ⟨data'', hdata'', hname''.trans hname'⟩

lemma ofWidens {wider : TypeTable} (h : Widens types wider) : Enlarges types wider where
  get? := h.get?
  names id data hdata := by
    refine ⟨data, ?_, rfl⟩
    rw [TypeTable.data?, h.datas]
    exact hdata

lemma defineData (types : TypeTable) (id : Nat) (fields : List (String × Nat)) :
    Enlarges types (types.defineData id fields) where
  get? _ _ h := h
  names other data hdata := by
    rw [TypeTable.data?] at hdata
    rw [TypeTable.data?, TypeTable.defineData, Array.getElem?_modify, hdata]
    split_ifs
    · exact ⟨_, rfl, rfl⟩
    · exact ⟨_, rfl, rfl⟩

end Enlarges

/-- The table of types is in order, and each name in a list stands for the data type of that name. -/
structure Resolving (datas : DataNames) (types : TypeTable) : Prop where
  regular : Regular types
  named : ∀ entry ∈ datas, ∃ id data, types.get? entry.2 = some (.data id) ∧
    types.data? id = some data ∧ data.name = entry.1

lemma Resolving.enlarge {larger : TypeTable} (h : Resolving datas types)
    (hregular : Regular larger) (hlarger : Enlarges types larger) : Resolving datas larger where
  regular := hregular
  named entry hentry := by
    obtain ⟨id, data, hget, hdata, hname⟩ := h.named entry hentry
    obtain ⟨data', hdata', hname'⟩ := hlarger.names id data hdata
    exact ⟨id, data', hlarger.get? _ _ hget, hdata', hname'.trans hname⟩

/-- A step of loading only adds result types, and what it gives has a property in every table that
is made from there on, given the number of its first node and the next number behind its last. -/
def Leaves {α : Type} (datas : DataNames) (step : LoadM α)
    (Q : Nat → Nat → TypeTable → α → Prop) : Prop :=
  ∀ s x s', step.run s = .ok (x, s') → Resolving datas s.types → Resolving datas s'.types ∧
    Widens s.types s'.types ∧ ∀ final, Enlarges s'.types final → Q s.nodes s'.nodes final x

abbrev Notes {α : Type} (datas : DataNames) (step : LoadM α) (P : TypeTable → α → Prop) : Prop :=
  Leaves datas step fun first last final x => last = first ∧ P final x

namespace Leaves

variable {β : Type} {P : Nat → Nat → TypeTable → α → Prop} {Q : Nat → Nat → TypeTable → β → Prop}

lemma pure {x : α} (h : ∀ {n} types, P n n types x) : Leaves datas (Pure.pure x) P := by
  intro s y s' hrun hresolving
  cases hrun
  exact ⟨hresolving, .refl _, fun final _ => h final⟩

lemma throw {error : LoadError} : Leaves datas (MonadExcept.throw error) P := by
  intro s y s' hrun
  cases hrun

lemma bind {step : LoadM α} {next : α → LoadM β} (h : Leaves datas step P)
    (hnext : ∀ {first} x, Leaves datas (next x) fun middle last final y =>
      P first middle final x → Q first last final y) : Leaves datas (step >>= next) Q := by
  intro s y s' hrun hresolving
  rw [StateT.run_bind] at hrun
  obtain ⟨⟨x, middle⟩, hfirst, hsecond⟩ := bind_eq_ok_iff.mp hrun
  obtain ⟨hresolving1, hwider1, hp⟩ := h s x middle hfirst hresolving
  obtain ⟨hresolving2, hwider2, hq⟩ := hnext x middle y s' hsecond hresolving1
  exact ⟨hresolving2, hwider1.trans hwider2, fun final hfinal =>
    hq final hfinal (hp final ((Enlarges.ofWidens hwider2).trans hfinal))⟩

lemma note {step : LoadM α} {next : α → LoadM β} {P : TypeTable → α → Prop} (h : Notes datas step P)
    (hnext : ∀ x, Leaves datas (next x) fun first last final y => P final x → Q first last final y) :
    Leaves datas (step >>= next) Q := by
  refine h.bind fun x s y s' hrun hresolving => ?_
  obtain ⟨hresolving', hwider, hq⟩ := hnext x s y s' hrun hresolving
  refine ⟨hresolving', hwider, fun final hfinal hp => ?_⟩
  exact hp.1 ▸ hq final hfinal hp.2

lemma skip {x : α} {next : α → LoadM β} (h : Leaves datas (next x) Q) :
    Leaves datas (Pure.pure x >>= next) Q := by
  rw [pure_bind]
  exact h

lemma bindMap {step : LoadM α} {f : α → γ} {next : γ → LoadM β} (h : Leaves datas step P)
    (hnext : ∀ {first} x, Leaves datas (next (f x)) fun middle last final y =>
      P first middle final x → Q first last final y) :
    Leaves datas (f <$> step >>= next) Q := by
  rw [bind_map_left]
  exact h.bind hnext

end Leaves

/-- A type is known by a name: it is found to every depth that is large enough. -/
def KnownAs (name : TypeName) (types : TypeTable) (id : Nat) : Prop :=
  id < types.size ∧ ∀ depth, id < depth → nameTo types depth id = some name

lemma KnownAs.nameOf {name : TypeName} (h : KnownAs name types id) : nameOf types id = some name :=
  h.2 types.size h.1

lemma knownAs_of {name : TypeName} {ty : StaticType} (hget : types.get? id = some ty)
    (hname : ∀ depth, id ≤ depth → nameTo types (depth + 1) id = some name) :
    KnownAs name types id := by
  refine ⟨Regular.lt_size hget, fun depth hdepth => ?_⟩
  cases depth with
  | zero => cases hdepth
  | succ depth => exact hname depth (Nat.le_of_lt_succ hdepth)

lemma nameTo_result {ok err depth : Nat} {okName errName : TypeName}
    (hget : types.get? id = some (.result ok err)) (hok : nameTo types depth ok = some okName)
    (herr : nameTo types depth err = some errName) :
    nameTo types (depth + 1) id = some (.result okName errName) := by
  rw [nameTo, hget]
  simp only [hok, herr]
  rfl

lemma get?_result (types : TypeTable) (ok err : Nat) :
    (types.result ok err).2.get? (types.result ok err).1 = some (.result ok err) := by
  rw [TypeTable.result]
  rcases intern_cases types (.result ok err) with ⟨id, hget, heq⟩ | ⟨-, heq⟩
  · rw [heq]
    exact hget
  · rw [heq]
    exact get?_withType.mpr (.inr ⟨rfl, rfl⟩)

section Loading

variable (datas : DataNames)

lemma loadSpan_leaves (bounds : Bounds) :
    Notes datas (loadSpan bounds) fun _ span => boundsOf span = withBounds bounds := by
  cases bounds with
  | none => exact .pure fun _ => ⟨rfl, rfl⟩
  | some ends =>
    rw [loadSpan]
    cases hspan : Span.ofBounds? ends.1 ends.2 with
    | none => exact .throw
    | some span =>
      obtain ⟨hstart, hstop⟩ := Span.ofBounds?_eq_some_iff.mp hspan
      refine .pure fun _ => ⟨rfl, ?_⟩
      simp [boundsOf, hstart, hstop, withBounds]

lemma nextNode_leaves :
    Leaves datas nextNode fun first last _ node => node = first ∧ last = first + 1 := by
  intro s x s' hrun hresolving
  cases hrun
  exact ⟨hresolving, .refl _, fun _ _ => ⟨rfl, rfl⟩⟩

lemma node_leaves {α : Type} {P : Nat → Nat → TypeTable → α → Prop} {bounds : Bounds}
    {f : Span → Nat → α} (h : ∀ {node span} final, boundsOf span = withBounds bounds →
      P node (node + 1) final (f span node)) :
    Leaves datas (do let span ← loadSpan bounds; return f span (← nextNode)) P := by
  refine .note (loadSpan_leaves datas bounds) fun span s x s' hrun hresolving => ?_
  cases hrun
  exact ⟨hresolving, .refl _, fun final _ => h final⟩

lemma loadType_leaves (name : TypeName) : Notes datas (loadType datas name) (KnownAs name) := by
  have hprimitive (id : Nat) (ty : StaticType) (hty : TypeTable.initial.get? id = some ty)
      (name : TypeName) (hname : ∀ types depth, types.get? id = some ty →
        nameTo types (depth + 1) id = some name) : Notes datas (pure id) (KnownAs name) := by
    intro s x s' hrun hresolving
    cases hrun
    refine ⟨hresolving, .refl _, fun final hfinal => ⟨rfl, ?_⟩⟩
    have hget := hfinal.get? id ty (hresolving.regular.primitives id ty hty)
    exact knownAs_of hget fun depth _ => hname final depth hget
  induction name with
  | unit => exact hprimitive TypeTable.unit .unit rfl _ fun _ _ h => by rw [nameTo, h]
  | bool => exact hprimitive TypeTable.bool .bool rfl _ fun _ _ h => by rw [nameTo, h]
  | int => exact hprimitive TypeTable.int .int rfl _ fun _ _ h => by rw [nameTo, h]
  | float => exact hprimitive TypeTable.float .float rfl _ fun _ _ h => by rw [nameTo, h]
  | str => exact hprimitive TypeTable.str .str rfl _ fun _ _ h => by rw [nameTo, h]
  | never => exact hprimitive TypeTable.never .never rfl _ fun _ _ h => by rw [nameTo, h]
  | data name =>
    rw [loadType]
    cases hlookup : datas.lookup name with
    | none => exact .throw
    | some id =>
      intro s x s' hrun hresolving
      cases hrun
      obtain ⟨before, after, heq, -⟩ := lookup_eq_some_iff.mp hlookup
      have hentry : (name, id) ∈ datas := by
        rw [heq]
        exact mem_append_right _ mem_cons_self
      obtain ⟨place, data, hget, hdata, hname⟩ := hresolving.named _ hentry
      refine ⟨hresolving, .refl _, fun final hfinal => ⟨rfl, ?_⟩⟩
      have hget := hfinal.get? id _ hget
      obtain ⟨data', hdata', hname'⟩ := hfinal.names place data hdata
      refine knownAs_of hget fun depth _ => ?_
      rw [nameTo, hget]
      simp only [hdata', Option.map_some, hname'.trans hname]
  | result ok err ihok iherr =>
    intro s x s' hrun hresolving
    rw [loadType, StateT.run_bind] at hrun
    obtain ⟨⟨okId, s1⟩, hok, hrun⟩ := bind_eq_ok_iff.mp hrun
    rw [StateT.run_bind] at hrun
    obtain ⟨⟨errId, s2⟩, herr, hrun⟩ := bind_eq_ok_iff.mp hrun
    obtain ⟨hresolving1, hwider1, hokKnown⟩ := ihok s okId s1 hok hresolving
    obtain ⟨hresolving2, hwider2, herrKnown⟩ := iherr s1 errId s2 herr hresolving1
    cases hrun
    have hlarger2 := Enlarges.ofWidens hwider2
    obtain ⟨hregular, hwider3⟩ := hresolving2.regular.result (hokKnown s2.types hlarger2).2.1
      (herrKnown s2.types (.refl _)).2.1
    have hlarger3 := Enlarges.ofWidens hwider3
    have hget := get?_result s2.types okId errId
    refine ⟨hresolving2.enlarge hregular hlarger3, (hwider1.trans hwider2).trans hwider3,
      fun final hfinal => ⟨?_, ?_⟩⟩
    · exact (herrKnown s2.types (.refl _)).1.trans (hokKnown s2.types hlarger2).1
    -- payloads stand before their result, so that less depth is enough for them
    obtain ⟨hokLt, herrLt⟩ := hregular.payloads _ _ _ hget
    have hget := hfinal.get? _ _ hget
    refine knownAs_of hget fun depth hdepth => ?_
    exact nameTo_result hget
      ((hokKnown final ((hlarger2.trans hlarger3).trans hfinal)).2.2 depth (hokLt.trans_le hdepth))
      ((herrKnown final (hlarger3.trans hfinal)).2.2 depth (herrLt.trans_le hdepth))

end Loading

/-! ### Steps of laying out -/

/-- A row stands at some position of its table. -/
abbrev HoldsRow (tables : Tables) (position : Nat) : NewRow → Prop
  | .block row => tables.blocks[position]? = some row
  | .stmt row => tables.stmts[position]? = some row
  | .expr row => tables.exprs[position]? = some row

/-- Tables that hold the rows of others where they are. -/
structure Prolongs (tables later : Tables) : Prop where
  holds : ∀ position row, HoldsRow tables position row → HoldsRow later position row
  rows : rowsIn tables ≤ rowsIn later

namespace Prolongs

lemma refl (tables : Tables) : Prolongs tables tables :=
  ⟨fun _ _ h => h, le_rfl⟩

lemma trans {a b c : Tables} (hab : Prolongs a b) (hbc : Prolongs b c) : Prolongs a c :=
  ⟨fun position row h => hbc.holds position row (hab.holds position row h), hab.rows.trans hbc.rows⟩

end Prolongs

/-- A step of laying out only adds rows, and what it gives is read in some way from the tables that
are made from there on, to a depth of as many rows as there are then. -/
def Rereads {α : Type} (types : TypeTable) (step : LayOut α) (Q : Readers → α → Prop) : Prop :=
  ∀ tables, Prolongs tables (step tables).2 ∧ ∀ final depth, Prolongs (step tables).2 final →
    rowsIn (step tables).2 ≤ depth → Q (readersTo types final depth) (step tables).1

/-- A step of laying out that also adds the rows of some numbers to a forest. -/
structure LaysOut {α : Type} (types : TypeTable) (step : LayOut α) (first last : Nat)
    (before : List Ref) (after : α → List Ref) (Q : Readers → α → Prop) : Prop where
  plants : Plants step first last before after
  reads : Rereads types step Q

section Laying

variable {β : Type} {P : Readers → α → Prop} {Q : Readers → β → Prop} {first middle last : Nat}
  {before : List Ref} {refs : α → List Ref} {after : β → List Ref}

lemma Rereads.pure {x : α} (h : ∀ readers, P readers x) : Rereads types (Pure.pure x) P :=
  fun tables => ⟨.refl tables, fun _ _ _ _ => h _⟩

lemma Rereads.bind {step : LayOut α} {next : α → LayOut β} (h : Rereads types step P)
    (hnext : ∀ x, Rereads types (next x) fun readers y => P readers x → Q readers y) :
    Rereads types (step >>= next) Q := by
  intro tables
  obtain ⟨hfirst, hp⟩ := h tables
  obtain ⟨hsecond, hq⟩ := hnext (step tables).1 (step tables).2
  exact ⟨hfirst.trans hsecond, fun final depth hfinal hdepth =>
    hq final depth hfinal hdepth (hp final depth (hsecond.trans hfinal) (hsecond.rows.trans hdepth))⟩

namespace LaysOut

lemma pure {x : α} (h : ∀ readers, P readers x) (href : refs x = before := by rfl) :
    LaysOut types (Pure.pure x) first first before refs P :=
  ⟨.pure href, .pure h⟩

lemma bind {step : LayOut α} {next : α → LayOut β} (h : LaysOut types step first middle [] refs P)
    (hnext : ∀ x, LaysOut types (next x) middle last (before ++ refs x) after
      fun readers y => P readers x → Q readers y) :
    LaysOut types (step >>= next) first last before after Q :=
  ⟨h.plants.bind fun x => (hnext x).plants, h.reads.bind fun x => (hnext x).reads⟩

lemma skip {x : α} {next : α → LayOut β} (h : LaysOut types (next x) first last before after Q) :
    LaysOut types (Pure.pure x >>= next) first last before after Q := by
  rw [pure_bind]
  exact h

lemma bindMap {step : LayOut α} {f : α → γ} {next : γ → LayOut β}
    (h : LaysOut types step first middle [] refs P)
    (hnext : ∀ x, LaysOut types (next (f x)) middle last (before ++ refs x) after
      fun readers y => P readers x → Q readers y) :
    LaysOut types (f <$> step >>= next) first last before after Q := by
  rw [bind_map_left]
  exact h.bind hnext

end LaysOut

end Laying

lemma getElem?_push_of_some {arena : Arena α} {element added : α} {position : Nat}
    (h : arena[position]? = some element) : (arena.push added)[position]? = some element := by
  have hlt : position < arena.size := (Array.getElem?_eq_some_iff.mp h).1
  rw [Array.getElem?_push, if_neg hlt.ne]
  exact h

lemma rowsIn_add (tables : Tables) (new : NewRow) :
    rowsIn (tables.add new).2 = rowsIn tables + 1 := by
  cases new <;> simp only [rowsIn, Tables.add, Array.size_push] <;> omega

lemma prolongs_add (tables : Tables) (new : NewRow) : Prolongs tables (tables.add new).2 where
  holds position row h := by
    cases new <;> cases row <;> first | exact h | exact getElem?_push_of_some h
  rows := by
    rw [rowsIn_add]
    exact Nat.le_succ _

lemma holdsRow_add (tables : Tables) (new : NewRow) :
    HoldsRow (tables.add new).2 (tables.add new).1 new := by
  cases new <;> exact Array.getElem?_push_size

/-- A row that is added last is read with one turn more than what is in it. -/
lemma LaysOut.row {step : LayOut α} {P : Readers → α → Prop}
    {Q : Readers → Nat → Prop} {first number : Nat} {parts : α → List Ref} {ref : Nat → Ref}
    (h : LaysOut types step first number [] parts P) (new : α → NewRow)
    (hnew : ∀ x position, newNode position (new x) = ⟨ref position, number, parts x⟩)
    (hread : ∀ final depth position x, HoldsRow final position (new x) →
      P (readersTo types final depth) x → Q (readersTo types final (depth + 1)) position) :
    LaysOut types (step >>= fun x => addRow (new x)) first (number + 1) [] (fun row => [ref row])
      Q := by
  refine ⟨h.plants.bind fun x => addRow_plants (hnew x), fun tables => ?_⟩
  obtain ⟨hfirst, hp⟩ := h.reads tables
  have hsecond := prolongs_add (step tables).2 (new (step tables).1)
  refine ⟨hfirst.trans hsecond, fun final depth hfinal hdepth => ?_⟩
  replace hdepth := (rowsIn_add (step tables).2 (new (step tables).1)).ge.trans hdepth
  cases depth with
  | zero => exact absurd hdepth (Nat.not_succ_le_zero _)
  | succ depth =>
    exact hread final depth _ _ (hfinal.holds _ _ (holdsRow_add ..))
      (hp final depth (hsecond.trans hfinal) (Nat.le_of_succ_le_succ hdepth))

/-! ### Trees -/

section Trees

variable (datas : DataNames)

def BlockRead (written : Source.Block TypeName Bounds Unit) (first last : Nat)
    (final : TypeTable) (x : LoadedBlock) : Prop :=
  LaysOut final (layOutBlock x) first last [] (fun row => [.block row]) fun readers position =>
    readers.block position = some (spannedBlock written)

def StmtRead (written : Stmt TypeName Bounds Unit) (first last : Nat)
    (final : TypeTable) (x : LoadedStmt) : Prop :=
  LaysOut final (layOutStmt x) first last [] (fun row => [.stmt row]) fun readers position =>
    readers.stmt position = some (spannedStmt written)

def StmtsRead (written : List (Stmt TypeName Bounds Unit)) (first last : Nat)
    (final : TypeTable) (x : List LoadedStmt) : Prop :=
  LaysOut final (layOutStmts x) first last [] (fun rows => rows.map .stmt) fun readers positions =>
    positions.mapM readers.stmt = some (spannedStmts written)

def StmtKindRead (written : StmtKind TypeName Bounds Unit) (first last : Nat)
    (final : TypeTable) (x : StmtKind Nat Span Nat) : Prop :=
  LaysOut final (layOutStmtKind x) first last [] stmtParts fun readers row =>
    readers.stmtKind final row = some (spannedStmtKind written)

def ExprRead (written : Source.Expr TypeName Bounds Unit) (first last : Nat)
    (final : TypeTable) (x : LoadedExpr) : Prop :=
  LaysOut final (layOutExpr x) first last [] (fun row => [.expr row]) fun readers position =>
    readers.expr position = some (spannedExpr written)

def ExprKindRead (written : ExprKind TypeName Bounds Unit) (first last : Nat)
    (final : TypeTable) (x : ExprKind Nat Span Nat) : Prop :=
  LaysOut final (layOutExprKind x) first last [] exprParts fun readers row =>
    readers.exprKind row = some (spannedExprKind written)

def ExprsRead (written : List (Source.Expr TypeName Bounds Unit)) (first last : Nat)
    (final : TypeTable) (x : List LoadedExpr) : Prop :=
  LaysOut final (layOutExprs x) first last [] (fun rows => rows.map .expr) fun readers positions =>
    positions.mapM readers.expr = some (spannedExprs written)

def InitsRead (written : List (FieldInit TypeName Bounds Unit)) (first last : Nat)
    (final : TypeTable) (x : List (FieldInit Nat Span Nat)) : Prop :=
  LaysOut final (layOutInits x) first last [] (fun rows => rows.map fun init => .expr init.2)
    fun readers rows => rows.mapM readers.fieldInit = some (spannedInits written)

def ArmsRead (written : List (Arm TypeName Bounds Unit)) (first last : Nat)
    (final : TypeTable) (x : List (Arm Nat Span Nat)) : Prop :=
  LaysOut final (layOutArms x) first last [] (fun rows => rows.map fun arm => .expr arm.body)
    fun readers rows => rows.mapM readers.arm = some (spannedArms written)

section Block

variable {first middle node : Nat} {span : Span} {bounds : Bounds} {final : TypeTable}
  {stmts : List LoadedStmt} {tail : LoadedExpr} {writtenStmts : List (Stmt TypeName Bounds Unit)}
  {writtenTail : Source.Expr TypeName Bounds Unit}

lemma blockRead_none (hspan : boundsOf span = withBounds bounds)
    (hstmts : StmtsRead writtenStmts first node final stmts) :
    BlockRead ⟨(), bounds, writtenStmts, none⟩ first (node + 1) final ⟨node, span, stmts, none⟩ := by
  have hkind : LaysOut final (layOutStmts stmts >>= fun rows => pure (BlockRow.mk rows none))
      first node [] blockParts fun readers kind =>
        kind.stmts.mapM readers.stmt = some (spannedStmts writtenStmts) ∧ kind.tail = none :=
    LaysOut.bind hstmts fun rows => .pure fun _ h => ⟨h, rfl⟩
  refine hkind.row (fun kind => .block { node, span, kind }) (fun _ _ => rfl) ?_
  rintro tables depth position kind hrow ⟨hread, htail⟩
  simp [readersTo, hrow, hread, htail, hspan, spannedBlock]

lemma blockRead_some (hspan : boundsOf span = withBounds bounds)
    (hstmts : StmtsRead writtenStmts first middle final stmts)
    (htail : ExprRead writtenTail middle node final tail) :
    BlockRead ⟨(), bounds, writtenStmts, some writtenTail⟩ first (node + 1) final
      ⟨node, span, stmts, some tail⟩ := by
  have hkind : LaysOut final (layOutStmts stmts >>= fun rows => some <$> layOutExpr tail >>=
        fun row => pure (BlockRow.mk rows row)) first node [] blockParts
      fun readers kind => kind.stmts.mapM readers.stmt = some (spannedStmts writtenStmts) ∧
        kind.tail.mapM readers.expr = some (some (spannedExpr writtenTail)) :=
    LaysOut.bind hstmts fun rows => LaysOut.bindMap htail fun row =>
      .pure fun _ hrow hrows => ⟨hrows, by simp [hrow]⟩
  refine hkind.row (fun kind => .block { node, span, kind }) (fun _ _ => rfl) ?_
  rintro tables depth position kind hrow ⟨hread, htail⟩
  simp [readersTo, hrow, hread, htail, hspan, spannedBlock]

end Block

mutual

/-- A loaded block is read back from the rows that it is laid out in. -/
theorem loadBlock_leaves : ∀ block, Leaves datas (loadBlock datas block) (BlockRead block)
  | ⟨_, _, stmts, none⟩ =>
    (loadStmts_leaves stmts).bind fun _ => .skip <| node_leaves datas fun _ hspan hstmts =>
      blockRead_none hspan hstmts
  | ⟨_, _, stmts, some tail⟩ =>
    (loadStmts_leaves stmts).bind fun _ => (loadExpr_leaves tail).bindMap fun _ =>
      node_leaves datas fun _ hspan htail hstmts => blockRead_some hspan hstmts htail

theorem loadStmts_leaves : ∀ stmts, Leaves datas (loadStmts datas stmts) (StmtsRead stmts)
  | [] => .pure fun _ => .pure fun _ => rfl
  | stmt :: rest =>
    (loadStmt_leaves stmt).bind fun _ => (loadStmts_leaves rest).bind fun _ =>
      .pure fun _ hrest hstmt => LaysOut.bind hstmt fun _ => LaysOut.bind hrest fun _ =>
        .pure fun _ hrest hstmt => by simp [hstmt, hrest, spannedStmts]

theorem loadStmt_leaves : ∀ stmt, Leaves datas (loadStmt datas stmt) (StmtRead stmt)
  | ⟨_, _, kind⟩ =>
    (loadStmtKind_leaves kind).bind fun _ => node_leaves datas fun _ hspan hkind =>
      LaysOut.row hkind _ (fun _ _ => rfl) fun _ _ _ _ hrow hread => by
        simp [readersTo, hrow, hread, hspan, spannedStmt]

theorem loadStmtKind_leaves : ∀ kind, Leaves datas (loadStmtKind datas kind) (StmtKindRead kind)
  | .letVar _ _ _ _ ty none =>
    (loadType_leaves datas ty).note fun _ => .skip <| .pure fun _ hty => .skip <| .pure fun _ => by
      simp [Readers.stmtKind, hty.nameOf, spannedStmtKind]
  | .letVar _ _ _ _ ty (some init) =>
    (loadType_leaves datas ty).note fun _ => (loadExpr_leaves init).bindMap fun _ =>
      .pure fun _ hinit hty => LaysOut.bindMap hinit fun _ => .pure fun _ hinit => by
        simp [Readers.stmtKind, hty.nameOf, hinit, spannedStmtKind]
  | .assign target _ value =>
    (loadExpr_leaves target).bind fun _ => (loadExpr_leaves value).bind fun _ =>
      .pure fun _ hvalue htarget => LaysOut.bind htarget fun _ => LaysOut.bind hvalue fun _ =>
        .pure fun _ hvalue htarget => by simp [Readers.stmtKind, htarget, hvalue, spannedStmtKind]
  | .expr value | .ret (some value) =>
    (loadExpr_leaves value).bind fun _ => .pure fun _ hvalue => LaysOut.bind hvalue fun _ =>
      .pure fun _ hvalue => by simp [Readers.stmtKind, hvalue, spannedStmtKind]
  | .ret none => .pure fun _ => .pure fun _ => rfl
  | .ifElse cond body none =>
    (loadExpr_leaves cond).bind fun _ => (loadBlock_leaves body).bind fun _ => .skip <|
      .pure fun _ hbody hcond => LaysOut.bind hcond fun _ => LaysOut.bind hbody fun _ => .skip <|
        .pure fun _ hbody hcond => by simp [Readers.stmtKind, hcond, hbody, spannedStmtKind]
  | .ifElse cond body (some (.block other)) =>
    (loadExpr_leaves cond).bind fun _ => (loadBlock_leaves body).bind fun _ =>
      (loadBlock_leaves other).bindMap fun _ => .pure fun _ hother hbody hcond =>
        LaysOut.bind hcond fun _ => LaysOut.bind hbody fun _ => LaysOut.bindMap hother fun _ =>
          .pure fun _ hother hbody hcond => by
            simp [Readers.stmtKind, Readers.otherwise, hcond, hbody, hother, spannedStmtKind]
  | .ifElse cond body (some (.chain stmt)) =>
    (loadExpr_leaves cond).bind fun _ => (loadBlock_leaves body).bind fun _ =>
      (loadStmt_leaves stmt).bindMap fun _ => .pure fun _ hstmt hbody hcond =>
        LaysOut.bind hcond fun _ => LaysOut.bind hbody fun _ => LaysOut.bindMap hstmt fun _ =>
          .pure fun _ hstmt hbody hcond => by
            simp [Readers.stmtKind, Readers.otherwise, hcond, hbody, hstmt, spannedStmtKind]
  | .whileLoop cond body =>
    (loadExpr_leaves cond).bind fun _ => (loadBlock_leaves body).bind fun _ =>
      .pure fun _ hbody hcond => LaysOut.bind hcond fun _ => LaysOut.bind hbody fun _ =>
        .pure fun _ hbody hcond => by simp [Readers.stmtKind, hbody, hcond, spannedStmtKind]
  | .loop body =>
    (loadBlock_leaves body).bind fun _ => .pure fun _ hbody => LaysOut.bind hbody fun _ =>
      .pure fun _ hbody => by simp [Readers.stmtKind, hbody, spannedStmtKind]
  | .forRange _ _ first last _ body =>
    (loadExpr_leaves first).bind fun _ => (loadExpr_leaves last).bind fun _ =>
      (loadBlock_leaves body).bind fun _ => .pure fun _ hbody hlast hfirst =>
        LaysOut.bind hfirst fun _ => LaysOut.bind hlast fun _ => LaysOut.bind hbody fun _ =>
          .pure fun _ hbody hlast hfirst => by
            simp [Readers.stmtKind, hfirst, hlast, hbody, spannedStmtKind]
  | .breakLoop => .pure fun _ => .pure fun _ => rfl
  | .continueLoop => .pure fun _ => .pure fun _ => rfl

theorem loadExpr_leaves : ∀ expr, Leaves datas (loadExpr datas expr) (ExprRead expr)
  | ⟨_, _, ty, kind⟩ =>
    (loadExprKind_leaves kind).bind fun _ => (loadType_leaves datas ty).note fun _ =>
      node_leaves datas fun _ hspan hty hkind =>
        LaysOut.row hkind _ (fun _ _ => rfl) fun _ _ _ _ hrow hread => by
          simp [readersTo, hrow, hread, hty.nameOf, hspan, spannedExpr]

theorem loadExprKind_leaves : ∀ kind, Leaves datas (loadExprKind datas kind) (ExprKindRead kind)
  | .literal _ | .localVar _ _ | .globalVar _ => .pure fun _ => .pure fun _ => rfl
  | .binary _ lhs rhs =>
    (loadExpr_leaves lhs).bind fun _ => (loadExpr_leaves rhs).bind fun _ => .pure fun _ hrhs hlhs =>
      LaysOut.bind hlhs fun _ => LaysOut.bind hrhs fun _ => .pure fun _ hrhs hlhs => by
        simp [Readers.exprKind, hlhs, hrhs, spannedExprKind]
  | .unary _ value | .cast value | .field value _ | .ok value | .err value | .propagate value =>
    (loadExpr_leaves value).bind fun _ => .pure fun _ hvalue => LaysOut.bind hvalue fun _ =>
      .pure fun _ hvalue => by simp [Readers.exprKind, hvalue, spannedExprKind]
  | .call _ args =>
    (loadExprs_leaves args).bind fun _ => .pure fun _ hargs => LaysOut.bind hargs fun _ =>
      .pure fun _ hargs => by simp [Readers.exprKind, hargs, spannedExprKind]
  | .data inits =>
    (loadInits_leaves inits).bind fun _ => .pure fun _ hinits => LaysOut.bind hinits fun _ =>
      .pure fun _ hinits => by simp [Readers.exprKind, hinits, spannedExprKind]
  | .ifElse cond body none =>
    (loadExpr_leaves cond).bind fun _ => (loadBlock_leaves body).bind fun _ => .skip <|
      .pure fun _ hbody hcond => LaysOut.bind hcond fun _ => LaysOut.bind hbody fun _ => .skip <|
        .pure fun _ hbody hcond => by simp [Readers.exprKind, hcond, hbody, spannedExprKind]
  | .ifElse cond body (some other) =>
    (loadExpr_leaves cond).bind fun _ => (loadBlock_leaves body).bind fun _ =>
      (loadExpr_leaves other).bindMap fun _ => .pure fun _ hother hbody hcond =>
        LaysOut.bind hcond fun _ => LaysOut.bind hbody fun _ => LaysOut.bindMap hother fun _ =>
          .pure fun _ hother hbody hcond => by
            simp [Readers.exprKind, hcond, hbody, hother, spannedExprKind]
  | .matchOn scrutinee arms =>
    (loadExpr_leaves scrutinee).bind fun _ => (loadArms_leaves arms).bind fun _ =>
      .pure fun _ harms hscrutinee => LaysOut.bind hscrutinee fun _ => LaysOut.bind harms fun _ =>
        .pure fun _ harms hscrutinee => by
          simp [Readers.exprKind, harms, hscrutinee, spannedExprKind]
  | .block body =>
    (loadBlock_leaves body).bind fun _ => .pure fun _ hbody => LaysOut.bind hbody fun _ =>
      .pure fun _ hbody => by simp [Readers.exprKind, hbody, spannedExprKind]

theorem loadExprs_leaves : ∀ exprs, Leaves datas (loadExprs datas exprs) (ExprsRead exprs)
  | [] => .pure fun _ => .pure fun _ => rfl
  | expr :: rest =>
    (loadExpr_leaves expr).bind fun _ => (loadExprs_leaves rest).bind fun _ =>
      .pure fun _ hrest hexpr => LaysOut.bind hexpr fun _ => LaysOut.bind hrest fun _ =>
        .pure fun _ hrest hexpr => by simp [hexpr, hrest, spannedExprs]

theorem loadInits_leaves : ∀ inits, Leaves datas (loadInits datas inits) (InitsRead inits)
  | [] => .pure fun _ => .pure fun _ => rfl
  | ⟨_, value⟩ :: rest =>
    (loadExpr_leaves value).bind fun _ => (loadInits_leaves rest).bind fun _ =>
      .pure fun _ hrest hvalue => LaysOut.bind hvalue fun _ => LaysOut.bind hrest fun _ =>
        .pure fun _ hrest hvalue => by simp [Readers.fieldInit, hvalue, hrest, spannedInits]

theorem loadArms_leaves : ∀ arms, Leaves datas (loadArms datas arms) (ArmsRead arms)
  | [] => .pure fun _ => .pure fun _ => rfl
  | ⟨_, body, bounds⟩ :: rest =>
    (loadExpr_leaves body).bind fun _ => (loadSpan_leaves datas bounds).note fun _ =>
      (loadArms_leaves rest).bind fun _ => .pure fun _ hrest hspan hbody =>
        LaysOut.bind hbody fun _ => LaysOut.bind hrest fun _ => .pure fun _ hrest hbody => by
          simp [Readers.arm, hbody, hrest, hspan, spannedArms]

end

end Trees

/-! ### Items -/

section Items

lemma Notes.mapM {β : Type} {step : α → LoadM β} {read : TypeTable → β → Option γ} {f : α → γ}
    (h : ∀ x, Notes datas (step x) fun final y => read final y = some (f x)) (xs : List α) :
    Notes datas (xs.mapM step) fun final ys => ys.mapM (read final) = some (xs.map f) := by
  induction xs with
  | nil => exact .pure fun _ => ⟨rfl, rfl⟩
  | cons x xs ih =>
    rw [mapM_cons]
    refine (h x).note fun y => ih.note fun ys => .pure fun final hys hy => ⟨rfl, ?_⟩
    simp [hy, hys]

lemma loadParam_leaves (param : Param TypeName Bounds) : Notes datas (loadParam datas param)
    fun final x => Readers.param final x = some (spannedParam param) :=
  (loadType_leaves datas param.ty).note fun _ => (loadSpan_leaves datas param.span).note fun _ =>
    .pure fun _ hspan hty => ⟨rfl, by simp [Readers.param, hty.nameOf, hspan, spannedParam]⟩

def ItemRead (written : Item TypeName Bounds Unit) (first last : Nat) (final : TypeTable)
    (item : LoadedItem) : Prop :=
  LaysOut final (layOutItem item) first last [] (fun row => itemParts row.kind) fun readers row =>
    readItem final readers (item, row) = some (spannedItem written)

lemma itemKind_leaves (kind : ItemKind TypeName Bounds Unit) : Leaves datas (loadItemKind datas kind)
    fun first last final x => ∀ node span name bounds, boundsOf span = withBounds bounds →
      ItemRead ⟨(), bounds, name, kind⟩ first last final ⟨node, span, name, x⟩ := by
  cases kind with
  | function params ret body =>
    refine (Notes.mapM loadParam_leaves params).note fun params' =>
      (loadType_leaves datas ret).note fun ret' => ?_
    cases body with
    | none =>
      refine .skip (.pure fun final hret hparams node span name bounds hspan => ?_)
      refine LaysOut.skip (.pure fun readers => ?_)
      simp [readItem, Readers.itemKind, hparams, hret.nameOf, hspan, spannedItem, spannedItemKind]
    | some body =>
      rw [Option.mapM_some]
      refine (loadBlock_leaves datas body).bindMap fun body' => .pure fun final hbody hret hparams
        node span name bounds hspan => ?_
      have hlay : layOutItem ⟨node, span, name, .function params' ret' (some body')⟩ =
          ((ItemRow.function params' ret' ∘ some) <$> layOutBlock body') >>=
            fun kind => pure { node, span, kind } := rfl
      rw [ItemRead, hlay]
      refine LaysOut.bindMap hbody fun row => .pure fun readers hrow => ?_
      simp [readItem, Readers.itemKind, hparams, hret.nameOf, hspan, hrow, spannedItem,
        spannedItemKind]
  | global ty mutable init =>
    refine (loadType_leaves datas ty).note fun ty' => ?_
    cases init with
    | none =>
      refine .skip (.pure fun final hty node span name bounds hspan => ?_)
      refine LaysOut.skip (.pure fun readers => ?_)
      simp [readItem, Readers.itemKind, hty.nameOf, hspan, spannedItem, spannedItemKind]
    | some init =>
      rw [Option.mapM_some]
      refine (loadExpr_leaves datas init).bindMap fun init' => .pure fun final hinit hty
        node span name bounds hspan => ?_
      have hlay : layOutItem ⟨node, span, name, .global ty' mutable (some init')⟩ =
          ((ItemRow.global ty' mutable ∘ some) <$> layOutExpr init') >>=
            fun kind => pure { node, span, kind } := rfl
      rw [ItemRead, hlay]
      refine LaysOut.bindMap hinit fun row => .pure fun readers hrow => ?_
      simp [readItem, Readers.itemKind, hty.nameOf, hspan, hrow, spannedItem, spannedItemKind]

lemma loadItems_leaves (seen : List String) (items : List (Item TypeName Bounds Unit)) :
    Leaves datas (loadItems datas seen items) fun first last final loaded =>
      PlantsItems loaded first last ∧ Rereads final (loaded.mapM layOutItem) fun readers rows =>
        (loaded.zip rows).mapM (readItem final readers) = some (items.map spannedItem) := by
  induction items generalizing seen with
  | nil => exact .pure fun _ => ⟨.nil, .pure fun _ => rfl⟩
  | cons item rest ih =>
    rw [loadItems]
    split_ifs
    · exact .throw
    · refine (itemKind_leaves item.kind).bind fun kind => (loadSpan_leaves datas item.span).note
        fun span => (nextNode_leaves datas).bind fun node => (ih _).bind fun loaded =>
        .pure fun final hrest hnode hspan hkind => ?_
      obtain ⟨rfl, rfl⟩ := hnode
      have hitem := hkind node span item.name item.span hspan
      refine ⟨.cons hitem.plants hrest.1, ?_⟩
      rw [mapM_cons]
      refine hitem.reads.bind fun row => hrest.2.bind fun rows => .pure fun readers hrows hrow => ?_
      simp [hrow, hrows]

end Items

/-! ### Data types -/

lemma Enlarges.declareData (h : Regular types) (name : String) :
    Enlarges types (types.declareData name).2 where
  get? id ty hget := by
    rw [h.declareData_eq name]
    exact get?_withType.mpr (.inl hget)
  names id data hdata := by
    have hlt : id < types.datas.size := (Array.getElem?_eq_some_iff.mp hdata).1
    refine ⟨data, ?_, rfl⟩
    rw [h.declareData_eq name, TypeTable.data?, withType, Array.getElem?_push, if_neg hlt.ne]
    exact hdata

/-- While data types are declared, the list of names is that of the table. -/
structure Declared (datas : DataNames) (types : TypeTable) : Prop where
  resolving : Resolving datas types
  listed : ∀ id data, types.data? id = some data → (datas.lookup data.name).isSome

lemma declared_initial : Declared [] TypeTable.initial :=
  ⟨⟨regular_initial, by simp⟩, by simp [TypeTable.data?, TypeTable.initial]⟩

lemma Declared.step {name : String} (h : Declared datas types)
    (hnew : ¬(datas.lookup name).isSome) :
    Declared (datas ++ [(name, (types.declareData name).1)]) (types.declareData name).2 := by
  have hother : ∀ id data, types.data? id = some data → data.name ≠ name :=
    fun id data hdata heq => hnew (heq ▸ h.listed id data hdata)
  have hregular := h.resolving.regular.declareData hother
  have heq := h.resolving.regular.declareData_eq name
  refine ⟨⟨hregular, fun entry hentry => ?_⟩, fun id data hdata => ?_⟩
  · rcases mem_append.mp hentry with hold | hnew
    · have hlarger := Enlarges.declareData h.resolving.regular name
      exact (h.resolving.enlarge hregular hlarger).named entry hold
    · obtain rfl := mem_singleton.mp hnew
      rw [heq]
      exact ⟨types.datas.size, { name }, get?_withType.mpr (.inr ⟨rfl, rfl⟩),
        Array.getElem?_push_size, rfl⟩
  · rw [lookup_append, Option.isSome_or, Bool.or_eq_true]
    rw [heq, TypeTable.data?, withType, Array.getElem?_push] at hdata
    split_ifs at hdata with hlast
    · obtain rfl := Option.some.inj hdata
      exact .inr (by simp)
    · exact .inl (h.listed id data hdata)

/-- The data types are declared in their order, and their names stand for them. -/
lemma declareDatas_resolving {decls : List DataDecl} {result : DataNames} {s s' : LoadState}
    (h : Declared datas s.types) (hrun : (declareDatas datas decls).run s = .ok (result, s')) :
    s'.nodes = s.nodes ∧ Resolving result s'.types ∧
      s'.types.datas.toList = s.types.datas.toList ++ decls.map fun decl => { name := decl.name } := by
  induction decls generalizing datas s with
  | nil =>
    cases hrun
    simpa using h.resolving
  | cons decl rest ih =>
    rw [declareDatas] at hrun
    split_ifs at hrun with hknown
    · cases hrun
    · obtain ⟨hnodes, hresult, hdatas⟩ :=
        ih (s := { s with types := (s.types.declareData decl.name).2 }) (h.step hknown) hrun
      refine ⟨hnodes, hresult, hdatas.trans ?_⟩
      rw [h.resolving.regular.declareData_eq decl.name]
      simp [withType]

lemma modify_append_cons (before after : List α) (x : α) (f : α → α) :
    (before ++ x :: after).modify before.length f = before ++ f x :: after := by
  induction before with
  | nil => rfl
  | cons y before ih => exact congrArg (y :: ·) ih

lemma defineDatas_read {decls : List DataDecl} {done : List DataType} {s s' : LoadState}
    (hresolving : Resolving datas s.types)
    (hdatas : s.types.datas.toList = done ++ decls.map fun decl => { name := decl.name })
    (hrun : (defineDatas datas done.length decls).run s = .ok ((), s')) :
    s'.nodes = s.nodes ∧ Resolving datas s'.types ∧ Enlarges s.types s'.types ∧ ∃ added,
      s'.types.datas.toList = done ++ added ∧
      ∀ final, Enlarges s'.types final → added.mapM (readData final) = some decls := by
  induction decls generalizing done s with
  | nil =>
    cases hrun
    exact ⟨rfl, hresolving, .refl _, [], hdatas, fun _ _ => rfl⟩
  | cons decl rest ih =>
    rw [defineDatas, StateT.run_bind] at hrun
    obtain ⟨⟨fields, middle⟩, hfields, hrest⟩ := bind_eq_ok_iff.mp hrun
    have hread (field : String × TypeName) : Notes datas (do
        return (field.1, ← loadType datas field.2)) fun final x => readDataField final x = some field :=
      (loadType_leaves datas field.2).note fun _ => .pure fun _ hty =>
        ⟨rfl, by simp [readDataField, hty.nameOf]⟩
    obtain ⟨hresolving1, hwider, hfieldsRead⟩ :=
      Notes.mapM hread decl.fields s fields middle hfields hresolving
    have hlarger2 := Enlarges.defineData middle.types done.length fields
    have hresolving2 := hresolving1.enlarge (hresolving1.regular.defineData done.length fields)
      hlarger2
    have hdatas2 : (middle.types.defineData done.length fields).datas.toList =
        (done ++ [DataType.mk decl.name fields]) ++ rest.map fun decl => { name := decl.name } := by
      rw [TypeTable.defineData, Array.toList_modify, hwider.datas, hdatas, map_cons,
        modify_append_cons, append_assoc]
      rfl
    have hnext : (defineDatas datas (done ++ [DataType.mk decl.name fields]).length rest).run
        { middle with types := middle.types.defineData done.length fields } = .ok ((), s') := by
      rw [length_append]
      exact hrest
    obtain ⟨hnodes, hresolving', hlarger3, added, hadded, haddedRead⟩ :=
      ih (s := { middle with types := middle.types.defineData done.length fields }) hresolving2
        hdatas2 hnext
    have hfieldsRead (final : TypeTable) (hfinal : Enlarges s'.types final) :=
      hfieldsRead final ((hlarger2.trans hlarger3).trans hfinal)
    refine ⟨hnodes.trans (hfieldsRead _ (.refl _)).1, hresolving',
      ((Enlarges.ofWidens hwider).trans hlarger2).trans hlarger3,
      DataType.mk decl.name fields :: added, ?_, fun final hfinal => ?_⟩
    · rw [hadded, append_assoc]
      rfl
    · simp [readData, (hfieldsRead final hfinal).2, haddedRead final hfinal]

/-- In the table of a loaded program the declared data types and all written types can be named. -/
lemma load_resolving {tree : Tree} {prog : Program} (h : tree.load = .ok prog) :
    prog.name = tree.name ∧ Regular prog.types ∧
      prog.types.datas.toList.mapM (readData prog.types) = some tree.datas ∧
      (∃ count, PlantsItems prog.items 0 count) ∧
      Rereads prog.types (prog.items.mapM layOutItem) fun readers rows =>
        (prog.items.zip rows).mapM (readItem prog.types readers) =
          some (tree.items.map spannedItem) := by
  rw [Tree.load] at h
  obtain ⟨⟨items, state⟩, hrun, hprogram⟩ := bind_eq_ok_iff.mp h
  cases hprogram
  rw [loadTree, StateT.run_bind] at hrun
  obtain ⟨⟨datas, s1⟩, hdeclare, hrun⟩ := bind_eq_ok_iff.mp hrun
  rw [StateT.run_bind] at hrun
  obtain ⟨⟨⟨⟩, s2⟩, hdefine, hitems⟩ := bind_eq_ok_iff.mp hrun
  obtain ⟨hnodes1, hresolving1, hdatas1⟩ :=
    declareDatas_resolving (s := { types := .initial }) declared_initial hdeclare
  obtain ⟨hnodes2, hresolving2, -, decls, hdecls, hdeclsRead⟩ :=
    @defineDatas_read datas tree.datas [] s1 s2 hresolving1 hdatas1 hdefine
  obtain ⟨hresolving3, hwider, hitemsRead⟩ :=
    loadItems_leaves [] tree.items s2 items state hitems hresolving2
  obtain ⟨hplants, hreads⟩ := hitemsRead state.types (.refl _)
  rw [hnodes2, hnodes1] at hplants
  refine ⟨rfl, hresolving3.regular, ?_, ⟨_, hplants⟩, hreads⟩
  rw [hwider.datas, hdecls]
  exact hdeclsRead state.types (.ofWidens hwider)

lemma load_regular {tree : Tree} {prog : Program} (h : tree.load = .ok prog) :
    Regular prog.types :=
  (load_resolving h).2.1

/-- Reading a loaded program back gives the tree that was loaded, with all its spans written out. -/
theorem loading_is_lossless {tree : Tree} {program : Program} (h : tree.load = .ok program) :
    readBack program = some (spannedTree tree) := by
  obtain ⟨hname, -, hdatas, -, hitems⟩ := load_resolving h
  have hread := (hitems {}).2 _ _ (.refl _) le_rfl
  simp only [readBack, hdatas]
  rw [show program.layOut = (program.items.mapM layOutItem) {} from rfl]
  simp only [hread, spannedTree, hname]
  rfl

/-- A module with a data type that holds results of itself, and a function that matches on one of
these; some spans are missing. -/
def chainTree : Tree :=
  let chain : TypeName := .result (.data "Link") .str
  let next : Source.Expr TypeName Bounds Unit :=
    ⟨(), some (30, 39), chain, .field ⟨(), none, .data "Link", .localVar 0 "link"⟩ "next"⟩
  let found : Arm TypeName Bounds Unit :=
    ⟨.ok (some { binding := 1, name := "other" }), ⟨(), none, .bool, .literal (.bool true)⟩, none⟩
  let ended : Arm TypeName Bounds Unit :=
    ⟨.err none, ⟨(), none, .bool, .literal (.bool false)⟩, some (50, 55)⟩
  { name := "chain"
    datas := [⟨"Link", [("value", .int), ("next", chain)]⟩]
    items := [
      ⟨(), none, "length", .global .int true none⟩,
      ⟨(), some (0, 60), "linked", .function [⟨0, "link", .data "Link", false, none⟩] .bool
        (some ⟨(), none, [], some ⟨(), none, .bool, .matchOn next [found, ended]⟩⟩)⟩] }

theorem chain_is_read_back : ∃ program, chainTree.load = .ok program ∧
    readBack program = some (spannedTree chainTree) :=
  ⟨_, rfl, loading_is_lossless rfl⟩

/-! ### The forest of a program -/

/-- The rows of a loaded program have the first numbers, each row its own. Every block, statement and
expression is a part of exactly one row, and that has a larger number, so that following references
comes to an end. -/
theorem loaded_rows_form_a_forest {tree : Tree} {program : Program} (h : tree.load = .ok program) :
    ((programNodes program).map RowNode.number).Perm (List.range (programNodes program).length) ∧
      ((programNodes program).flatMap RowNode.parts).Perm (tableRefs program.layOut.2) ∧
      (∀ node ∈ programNodes program, ∀ part ∈ node.parts,
        ∃ lower ∈ programNodes program, lower.ref = part ∧ lower.number < node.number) ∧
      WellFounded fun part whole =>
        ∃ node ∈ programNodes program, node.ref = whole ∧ part ∈ node.parts := by
  obtain ⟨-, -, -, ⟨count, hplants⟩, -⟩ := load_resolving h
  have hforest : Forest (programNodes program) count
      ((List.range program.layOut.1.length).map .item) :=
    hplants [] {} ⟨.nil, .nil, forall_mem_nil _⟩
  have hcount : (programNodes program).length = count := by
    simpa using hforest.numbers.length_eq
  refine ⟨hcount ▸ hforest.numbers, ?_, hforest.below, hforest.wellFounded ?_⟩
  · have hparts := hforest.parts.trans (.of_eq (ref_programNodes program))
    exact (perm_append_right_iff _).mp (hparts.trans perm_append_comm)
  · rw [ref_programNodes]
    exact nodup_refs _ _

theorem chain_is_a_forest : ∃ program, chainTree.load = .ok program ∧
    (programNodes program).length = 8 ∧
      ((programNodes program).map RowNode.number).Perm (List.range (programNodes program).length) ∧
      ((programNodes program).flatMap RowNode.parts).Perm (tableRefs program.layOut.2) :=
  have hforest := @loaded_rows_form_a_forest chainTree _ rfl
  ⟨_, rfl, rfl, hforest.1, hforest.2.1⟩

end SsaLowering.Proofs
