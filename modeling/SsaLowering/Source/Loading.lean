import SsaLowering.Source.Program

/-!
# Loading

Turns a written tree into a program: resolves type names, checks spans and numbers the nodes.
Parts are loaded in the order in which they are written, a node after its parts; the number of a
node is how many were loaded before it.
-/

namespace SsaLowering.Source

/-- Why a tree is not loaded. -/
inductive LoadError where
  | malformed
  | unknownData (name : String)
  | duplicateData (name : String)
  | duplicateItem (name : String)
  | invalidSpan (start stop : Nat)
  deriving DecidableEq, Repr

def LoadError.message : LoadError → String
  | malformed => "malformed syntax tree"
  | unknownData name => s!"unknown data type `{name}`"
  | duplicateData name => s!"data type `{name}` is defined twice"
  | duplicateItem name => s!"item `{name}` is defined twice"
  | invalidSpan start stop => s!"invalid span {start}..{stop}"

/-- The types interned and the nodes numbered so far. -/
structure LoadState where
  types : TypeTable
  nodes : Nat := 0

abbrev LoadM := StateT LoadState (Except LoadError)

def nextNode : LoadM Nat := fun state =>
  .ok (state.nodes, { state with nodes := state.nodes + 1 })

/-- Checks a span; an absent one is empty, at zero. -/
def loadSpan (bounds : Bounds) : LoadM Span :=
  match bounds with
  | none => pure .zero
  | some (start, stop) =>
    match Span.ofBounds? start stop with
    | some span => pure span
    | none => throw (.invalidSpan start stop)

/-- The data types by name, with their positions among the types. -/
abbrev DataNames := List (String × Nat)

def loadType (datas : DataNames) : TypeName → LoadM Nat
  | .unit => pure TypeTable.unit
  | .bool => pure TypeTable.bool
  | .int => pure TypeTable.int
  | .float => pure TypeTable.float
  | .str => pure TypeTable.str
  | .never => pure TypeTable.never
  | .data name =>
    match datas.lookup name with
    | some id => pure id
    | none => throw (.unknownData name)
  | .result ok err => do
    let ok ← loadType datas ok
    let err ← loadType datas err
    modifyGet fun state =>
      let (id, types) := state.types.result ok err
      (id, { state with types })

mutual

def loadBlock (datas : DataNames) : Block TypeName Bounds Unit → LoadM LoadedBlock
  | ⟨_, bounds, stmts, tail⟩ => do
    let stmts ← loadStmts datas stmts
    let tail ← match tail with
      | none => pure none
      | some tail => some <$> loadExpr datas tail
    let span ← loadSpan bounds
    return { node := ← nextNode, span, stmts, tail }

def loadStmts (datas : DataNames) : List (Stmt TypeName Bounds Unit) → LoadM (List LoadedStmt)
  | [] => pure []
  | stmt :: rest => do
    let stmt ← loadStmt datas stmt
    return stmt :: (← loadStmts datas rest)

def loadStmt (datas : DataNames) : Stmt TypeName Bounds Unit → LoadM LoadedStmt
  | ⟨_, bounds, kind⟩ => do
    let kind ← loadStmtKind datas kind
    let span ← loadSpan bounds
    return { node := ← nextNode, span, kind }

def loadStmtKind (datas : DataNames) :
    StmtKind TypeName Bounds Unit → LoadM (StmtKind Nat Span Nat)
  | .letVar binding name mutable captured ty init => do
    let ty ← loadType datas ty
    let init ← match init with
      | none => pure none
      | some init => some <$> loadExpr datas init
    return .letVar binding name mutable captured ty init
  | .assign target op value => do
    let target ← loadExpr datas target
    return .assign target op (← loadExpr datas value)
  | .expr value => return .expr (← loadExpr datas value)
  | .ret none => return .ret none
  | .ret (some value) => return .ret (some (← loadExpr datas value))
  | .ifElse cond body otherwise => do
    let cond ← loadExpr datas cond
    let body ← loadBlock datas body
    let otherwise ← match otherwise with
      | none => pure none
      | some (.block other) => (some ∘ Else.block) <$> loadBlock datas other
      | some (.chain stmt) => (some ∘ Else.chain) <$> loadStmt datas stmt
    return .ifElse cond body otherwise
  | .whileLoop cond body => do
    let cond ← loadExpr datas cond
    return .whileLoop cond (← loadBlock datas body)
  | .loop body => return .loop (← loadBlock datas body)
  | .forRange binding name first last inclusive body => do
    let first ← loadExpr datas first
    let last ← loadExpr datas last
    return .forRange binding name first last inclusive (← loadBlock datas body)
  | .breakLoop => pure .breakLoop
  | .continueLoop => pure .continueLoop

def loadExpr (datas : DataNames) : Expr TypeName Bounds Unit → LoadM LoadedExpr
  | ⟨_, bounds, ty, kind⟩ => do
    let kind ← loadExprKind datas kind
    let ty ← loadType datas ty
    let span ← loadSpan bounds
    return { node := ← nextNode, span, ty, kind }

def loadExprKind (datas : DataNames) :
    ExprKind TypeName Bounds Unit → LoadM (ExprKind Nat Span Nat)
  | .literal value => pure (.literal value)
  | .localVar binding name => pure (.localVar binding name)
  | .globalVar name => pure (.globalVar name)
  | .binary op lhs rhs => do
    let lhs ← loadExpr datas lhs
    return .binary op lhs (← loadExpr datas rhs)
  | .unary op operand => return .unary op (← loadExpr datas operand)
  | .cast operand => return .cast (← loadExpr datas operand)
  | .call callee args => return .call callee (← loadExprs datas args)
  | .field base name => return .field (← loadExpr datas base) name
  | .data inits => return .data (← loadInits datas inits)
  | .ok value => return .ok (← loadExpr datas value)
  | .err value => return .err (← loadExpr datas value)
  | .ifElse cond body otherwise => do
    let cond ← loadExpr datas cond
    let body ← loadBlock datas body
    let otherwise ← match otherwise with
      | none => pure none
      | some other => some <$> loadExpr datas other
    return .ifElse cond body otherwise
  | .matchOn scrutinee arms => do
    let scrutinee ← loadExpr datas scrutinee
    return .matchOn scrutinee (← loadArms datas arms)
  | .block body => return .block (← loadBlock datas body)
  | .propagate value => return .propagate (← loadExpr datas value)

def loadExprs (datas : DataNames) : List (Expr TypeName Bounds Unit) → LoadM (List LoadedExpr)
  | [] => pure []
  | expr :: rest => do
    let expr ← loadExpr datas expr
    return expr :: (← loadExprs datas rest)

def loadInits (datas : DataNames) :
    List (FieldInit TypeName Bounds Unit) → LoadM (List (FieldInit Nat Span Nat))
  | [] => pure []
  | ⟨name, value⟩ :: rest => do
    let value ← loadExpr datas value
    return ⟨name, value⟩ :: (← loadInits datas rest)

def loadArms (datas : DataNames) :
    List (Arm TypeName Bounds Unit) → LoadM (List (Arm Nat Span Nat))
  | [] => pure []
  | ⟨pattern, body, bounds⟩ :: rest => do
    let body ← loadExpr datas body
    let span ← loadSpan bounds
    return ⟨pattern, body, span⟩ :: (← loadArms datas rest)

end

def loadParam (datas : DataNames) (param : Param TypeName Bounds) : LoadM (Param Nat Span) := do
  let ty ← loadType datas param.ty
  let span ← loadSpan param.span
  return { binding := param.binding, name := param.name, ty, mutable := param.mutable, span }

def loadItemKind (datas : DataNames) :
    ItemKind TypeName Bounds Unit → LoadM (ItemKind Nat Span Nat)
  | .function params ret body => do
    let params ← params.mapM (loadParam datas)
    let ret ← loadType datas ret
    return .function params ret (← body.mapM (loadBlock datas))
  | .global ty mutable init => do
    let ty ← loadType datas ty
    return .global ty mutable (← init.mapM (loadExpr datas))

/-- Loads items; their names must differ from each other and from those already seen. -/
def loadItems (datas : DataNames) :
    List String → List (Item TypeName Bounds Unit) → LoadM (List LoadedItem)
  | _, [] => pure []
  | seen, item :: rest => do
    if item.name ∈ seen then throw (.duplicateItem item.name)
    let kind ← loadItemKind datas item.kind
    let span ← loadSpan item.span
    let node ← nextNode
    return { node, span, name := item.name, kind } ::
      (← loadItems datas (item.name :: seen) rest)

/-- Declares data types; their names must differ. -/
def declareDatas : DataNames → List DataDecl → LoadM DataNames
  | datas, [] => pure datas
  | datas, data :: rest => do
    if (datas.lookup data.name).isSome then throw (.duplicateData data.name)
    let id ← modifyGet fun state =>
      let (id, types) := state.types.declareData data.name
      (id, { state with types })
    declareDatas (datas ++ [(data.name, id)]) rest

/-- Resolves the fields of data types, numbered from `id` on. -/
def defineDatas (datas : DataNames) : Nat → List DataDecl → LoadM Unit
  | _, [] => pure ()
  | id, data :: rest => do
    let fields ← data.fields.mapM fun (name, ty) => return (name, ← loadType datas ty)
    modify fun state => { state with types := state.types.defineData id fields }
    defineDatas datas (id + 1) rest

def loadTree (tree : Tree) : LoadM (List LoadedItem) := do
  let datas ← declareDatas [] tree.datas
  defineDatas datas 0 tree.datas
  loadItems datas [] tree.items

def Tree.load (tree : Tree) : Except LoadError Program := do
  let (items, state) ← (loadTree tree).run { types := .initial }
  return { name := tree.name, types := state.types, items }

end SsaLowering.Source
