import Mathlib.Data.List.Nodup
import Mathlib.Tactic.Basic
import SsaLowering.Source.Tables

/-!
# The forest of a program

Items, blocks, statements and expressions are numbered together, each after its parts. So the rows
in which a loaded program is laid out are a forest. Its roots are the items, and numbers grow from
the leaves to the roots.
-/

namespace SsaLowering.Proofs

open Source List

/-! ### Rows and their parts -/

/-- A row of the tables. -/
inductive Ref where
  | item (position : Nat)
  | block (position : Nat)
  | stmt (position : Nat)
  | expr (position : Nat)
  deriving DecidableEq

def blockParts : BlockRow → List Ref
  | ⟨stmts, none⟩ => stmts.map .stmt
  | ⟨stmts, some tail⟩ => stmts.map .stmt ++ [.expr tail]

def elsePart : ElseRow → Ref
  | .block body => .block body
  | .chain stmt => .stmt stmt

def stmtParts : StmtRow → List Ref
  | .letVar _ _ _ _ _ value | .ret value => value.toList.map .expr
  | .assign target _ value => [.expr target, .expr value]
  | .expr value => [.expr value]
  | .ifElse cond body otherwise => .expr cond :: .block body :: otherwise.toList.map elsePart
  | .whileLoop cond body => [.expr cond, .block body]
  | .loop body => [.block body]
  | .forRange _ _ first last _ body => [.expr first, .expr last, .block body]
  | .breakLoop | .continueLoop => []

def exprParts : ExprRow → List Ref
  | .literal _ | .localVar _ _ | .globalVar _ => []
  | .binary _ lhs rhs => [.expr lhs, .expr rhs]
  | .unary _ value | .cast value | .field value _ | .ok value | .err value | .propagate value =>
    [.expr value]
  | .call _ args => args.map .expr
  | .data inits => inits.map fun init => .expr init.2
  | .ifElse cond body otherwise => .expr cond :: .block body :: otherwise.toList.map .expr
  | .matchOn scrutinee arms => .expr scrutinee :: arms.map fun arm => .expr arm.body
  | .block body => [.block body]

def itemParts : ItemRow → List Ref
  | .function _ _ body => body.toList.map .block
  | .global _ _ init => init.toList.map .expr

/-- A row of a program, with its number and its parts. -/
structure RowNode where
  ref : Ref
  number : Nat
  parts : List Ref

def rowNodes {κ : Type} (ref : Nat → Ref) (parts : κ → List Ref) (rows : List (Row κ)) :
    List RowNode :=
  rows.zipIdx.map fun entry => ⟨ref entry.2, entry.1.node, parts entry.1.kind⟩

def tableNodes (tables : Tables) : List RowNode :=
  rowNodes .block blockParts tables.blocks.toList ++ (rowNodes .stmt stmtParts tables.stmts.toList ++
    rowNodes .expr (fun row => exprParts row.kind) tables.exprs.toList)

/-- All rows of a program. -/
def programNodes (prog : Program) : List RowNode :=
  rowNodes .item itemParts prog.layOut.1 ++ tableNodes prog.layOut.2

/-- The rows of the tables: each block, statement and expression once. -/
def tableRefs (tables : Tables) : List Ref :=
  (List.range tables.blocks.size).map .block ++ ((List.range tables.stmts.size).map .stmt ++
    (List.range tables.exprs.size).map .expr)

section Rows

variable {κ : Type} (ref : Nat → Ref) (parts : κ → List Ref) (rows : List (Row κ))

lemma rowNodes_concat (row : Row κ) : rowNodes ref parts (rows ++ [row]) =
    rowNodes ref parts rows ++ [⟨ref rows.length, row.node, parts row.kind⟩] := by
  simp [rowNodes, zipIdx_append]

lemma ref_rowNodes : (rowNodes ref parts rows).map RowNode.ref = (List.range rows.length).map ref := by
  rw [range_eq_range', ← zipIdx_map_snd, rowNodes, map_map, map_map]
  rfl

end Rows

lemma ref_programNodes (prog : Program) : (programNodes prog).map RowNode.ref =
    (List.range prog.layOut.1.length).map .item ++ tableRefs prog.layOut.2 := by
  simp [programNodes, tableNodes, tableRefs, ref_rowNodes]

lemma nodup_refs (items : Nat) (tables : Tables) :
    ((List.range items).map Ref.item ++ tableRefs tables).Nodup := by
  have hmap {size : Nat} {ref : Nat → Ref} (hinj : ∀ i j, ref i = ref j → i = j) :
      ((List.range size).map ref).Nodup := nodup_range.map fun i j => hinj i j
  refine (hmap fun _ _ => Ref.item.inj).append ((hmap fun _ _ => Ref.block.inj).append
    ((hmap fun _ _ => Ref.stmt.inj).append (hmap fun _ _ => Ref.expr.inj) ?_) ?_) ?_ <;>
    simp [disjoint_left, tableRefs]

/-! ### Forests -/

/-- Some rows have the first numbers. Each is a part of one other that comes after it, or a root. -/
structure Forest (nodes : List RowNode) (count : Nat) (roots : List Ref) : Prop where
  numbers : (nodes.map RowNode.number).Perm (List.range count)
  parts : (nodes.flatMap RowNode.parts ++ roots).Perm (nodes.map RowNode.ref)
  below : ∀ node ∈ nodes, ∀ part ∈ node.parts,
    ∃ lower ∈ nodes, lower.ref = part ∧ lower.number < node.number

/-- A row that takes the last roots as its parts becomes a root. -/
lemma Forest.add {nodes nodes' : List RowNode} {count : Nat} {roots : List Ref} {node : RowNode}
    (h : Forest nodes count (roots ++ node.parts)) (hnumber : node.number = count)
    (hperm : nodes'.Perm (node :: nodes)) : Forest nodes' (count + 1) (roots ++ [node.ref]) where
  numbers := by
    refine (hperm.map _).trans ?_
    rw [map_cons, hnumber, range_succ]
    exact (h.numbers.cons _).trans (perm_append_singleton _ _).symm
  parts := by
    refine perm_iff_count.mpr fun ref => ?_
    have hold := h.parts.count_eq ref
    rw [((hperm.flatMap_right _).append_right _).count_eq, (hperm.map _).count_eq]
    simp only [flatMap_cons, map_cons, count_append, count_cons, count_nil]
      at hold ⊢
    omega
  below whole hwhole part hpart := by
    rcases mem_cons.mp (hperm.mem_iff.mp hwhole) with rfl | hold
    · obtain ⟨lower, hlower, rfl⟩ := mem_map.mp <| h.parts.mem_iff.mp <|
        mem_append_right _ (mem_append_right _ hpart)
      refine ⟨lower, hperm.mem_iff.mpr (mem_cons_of_mem _ hlower), rfl, ?_⟩
      rw [hnumber]
      exact mem_range.mp (h.numbers.mem_iff.mp (mem_map_of_mem hlower))
    · obtain ⟨lower, hlower, hrest⟩ := h.below whole hold part hpart
      exact ⟨lower, hperm.mem_iff.mpr (mem_cons_of_mem _ hlower), hrest⟩

/-- No row is part of itself, however far down. -/
lemma Forest.wellFounded {nodes : List RowNode} {count : Nat} {roots : List Ref}
    (h : Forest nodes count roots) (hnodup : (nodes.map RowNode.ref).Nodup) :
    WellFounded fun part whole => ∃ node ∈ nodes, node.ref = whole ∧ part ∈ node.parts := by
  have hacc (node : RowNode) (hnode : node ∈ nodes) :
      Acc (fun part whole => ∃ node ∈ nodes, node.ref = whole ∧ part ∈ node.parts) node.ref := by
    induction hnumber : node.number using Nat.strongRecOn generalizing node with
    | _ number ih =>
      refine ⟨_, fun part hpart => ?_⟩
      obtain ⟨whole, hwhole, href, hpart⟩ := hpart
      cases inj_on_of_nodup_map hnodup hwhole hnode href
      obtain ⟨lower, hlower, rfl, hlt⟩ := h.below node hnode part hpart
      exact ih lower.number (hnumber ▸ hlt) lower hlower rfl
  refine ⟨fun whole => ⟨_, fun part hpart => ?_⟩⟩
  obtain ⟨node, hnode, -, hpart⟩ := hpart
  obtain ⟨lower, hlower, rfl, -⟩ := h.below node hnode part hpart
  exact hacc lower hlower

/-! ### Steps of laying out -/

/-- A step of laying out adds the rows of some numbers. What it gives refers to the last roots. -/
def Plants {α : Type} (step : LayOut α) (first last : Nat) (before : List Ref)
    (after : α → List Ref) : Prop :=
  ∀ done tables roots, Forest (done ++ tableNodes tables) first (roots ++ before) →
    Forest (done ++ tableNodes (step tables).2) last (roots ++ after (step tables).1)

namespace Plants

variable {α β : Type} {first middle last : Nat} {before : List Ref} {refs : α → List Ref}
  {after : β → List Ref} {step : LayOut α}

lemma pure {x : α} (h : refs x = before) : Plants (Pure.pure x) first first before refs := by
  intro done tables roots hforest
  rw [← h] at hforest
  exact hforest

lemma bind {next : α → LayOut β} (h : Plants step first middle [] refs)
    (hnext : ∀ x, Plants (next x) middle last (before ++ refs x) after) :
    Plants (step >>= next) first last before after := by
  intro done tables roots hforest
  rw [← append_nil (roots ++ before)] at hforest
  have hmiddle := h done tables _ hforest
  rw [append_assoc] at hmiddle
  exact hnext _ done _ roots hmiddle

end Plants

/-- What a new row becomes at some position of its table. -/
def newNode (position : Nat) : NewRow → RowNode
  | .block row => ⟨.block position, row.node, blockParts row.kind⟩
  | .stmt row => ⟨.stmt position, row.node, stmtParts row.kind⟩
  | .expr row => ⟨.expr position, row.node, exprParts row.kind.kind⟩

/-- A new row comes to the rows of the tables, whichever of them it is put into. -/
lemma tableNodes_add (tables : Tables) (new : NewRow) : (tableNodes (tables.add new).2).Perm
    (newNode (tables.add new).1 new :: tableNodes tables) := by
  obtain ⟨blocks, stmts, exprs⟩ := tables
  cases new with
  | block row =>
    simp [Tables.add, newNode, tableNodes, rowNodes_concat]
  | stmt row =>
    simpa [Tables.add, newNode, tableNodes, rowNodes_concat] using @perm_middle _ _
      (rowNodes .block blockParts blocks.toList ++ rowNodes .stmt stmtParts stmts.toList) _
  | expr row =>
    simpa [Tables.add, newNode, tableNodes, rowNodes_concat] using
      perm_append_singleton _ (tableNodes ⟨blocks, stmts, exprs⟩)

/-- A new row takes its parts from the roots and becomes one. -/
lemma addRow_plants {new : NewRow} {number : Nat} {parts : List Ref} {ref : Nat → Ref}
    (h : ∀ position, newNode position new = ⟨ref position, number, parts⟩) :
    Plants (addRow new) number (number + 1) parts fun row => [ref row] := by
  intro done tables roots hforest
  have hnodes := tableNodes_add tables new
  rw [h] at hnodes
  exact @Forest.add _ _ _ _ ⟨_, number, parts⟩ hforest rfl
    ((hnodes.append_left done).trans perm_middle)

/-- The same for the items of a program, which become roots. -/
def PlantsItems (items : List LoadedItem) (first last : Nat) : Prop :=
  ∀ before tables, Forest (rowNodes .item itemParts before ++ tableNodes tables) first
      ((List.range before.length).map .item) →
    Forest (rowNodes .item itemParts (before ++ (items.mapM layOutItem tables).1) ++
        tableNodes (items.mapM layOutItem tables).2) last
      ((List.range (before ++ (items.mapM layOutItem tables).1).length).map .item)

lemma node_layOutItem (item : LoadedItem) (tables : Tables) :
    (layOutItem item tables).1.node = item.node := by
  obtain ⟨_, _, _, _ | _⟩ := item <;> rfl

lemma PlantsItems.nil {count : Nat} : PlantsItems [] count count := by
  intro before tables hforest
  rw [mapM_nil]
  change Forest (rowNodes .item itemParts (before ++ []) ++ _) count
    ((List.range (before ++ []).length).map .item)
  rwa [append_nil]

lemma PlantsItems.cons {item : LoadedItem} {rest : List LoadedItem} {first last : Nat}
    (h : Plants (layOutItem item) first item.node [] fun row => itemParts row.kind)
    (hrest : PlantsItems rest (item.node + 1) last) : PlantsItems (item :: rest) first last := by
  intro before tables hforest
  have hrow := h _ tables ((List.range before.length).map .item) (by rwa [append_nil])
  rw [mapM_cons]
  have hadd := @Forest.add _ (rowNodes .item itemParts (before ++ [(layOutItem item tables).1]) ++
    tableNodes (layOutItem item tables).2) _ _ ⟨.item before.length, item.node, _⟩ hrow rfl (by
      rw [rowNodes_concat, node_layOutItem, append_assoc]
      exact perm_middle)
  have hmore := hrest (before ++ [(layOutItem item tables).1]) _ (by simpa [range_succ] using hadd)
  rw [append_assoc] at hmore
  exact hmore

end SsaLowering.Proofs
