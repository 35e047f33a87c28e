import SsaLowering.Core.Stamp
import SsaLowering.Lowering.Environment
import Mathlib.Data.List.Basic
import Mathlib.Tactic.Common

/-!
# What stamps cover

The atoms of a body determine it. Those of a program determine its static types, the data types
among them and the types of its globals, although the fields of a data type, the parameters of
a function and the items are not counted: a text begins a field or an item, and the two differ in
how many numbers follow.
-/

namespace SsaLowering.Proofs

open SsaLowering.Core List
open Source (Literal StaticType TypeTable DataType LoadedItem Program)

variable {rest rest' : List Atom}

/-- Some content can be read off the front of its atoms, whatever follows them. -/
abbrev Marks {α : Type} (atoms : α → List Atom) (x : α) : Prop :=
  ∀ ⦃y : α⦄ ⦃rest rest' : List Atom⦄, atoms x ++ rest = atoms y ++ rest' ↔ x = y ∧ rest = rest'

/-- The parts of a list can be read off the front of their atoms, given how many they are. -/
abbrev MarksAll {α : Type} (atoms : List α → List Atom) (xs : List α) : Prop :=
  ∀ ⦃ys : List α⦄ ⦃rest rest' : List Atom⦄, xs.length = ys.length ∧
    atoms xs ++ rest = atoms ys ++ rest' ↔ xs = ys ∧ rest = rest'

/-! ### Bodies -/

@[simp] lemma number_inj {a b : UInt64} : Atom.number a = Atom.number b ↔ a = b := by
  simp [Atom.number, UInt64.toNat_inj]

@[simp] lemma bool_inj {a b : Bool} : Atom.bool a = Atom.bool b ↔ a = b := by
  cases a <;> cases b <;> simp [Atom.bool]

@[simp] lemma local_id_inj {a b : Local} : a.id = b.id ↔ a = b := by
  cases a
  cases b
  simp

@[simp] lemma toUInt64_inj {a b : Int64} : a.toUInt64 = b.toUInt64 ↔ a = b := by
  refine ⟨fun h => ?_, fun h => h ▸ rfl⟩
  rw [← Int64.toInt64_toUInt64 a, h, Int64.toInt64_toUInt64]

@[simp] lemma binaryOpNumber_inj {a b : BinaryOp} :
    binaryOpNumber a = binaryOpNumber b ↔ a = b := by
  cases a <;> cases b <;> decide

@[simp] lemma unaryOpNumber_inj {a b : Source.UnaryOp} :
    unaryOpNumber a = unaryOpNumber b ↔ a = b := by
  cases a <;> cases b <;> decide

lemma span_ext_iff {a b : Span} : a = b ↔ a.start = b.start ∧ a.stop = b.stop := by
  cases a
  cases b
  simp

@[simp] lemma originAtoms_append {node node' : Nat} {span span' : Span} :
    originAtoms node span ++ rest = originAtoms node' span' ++ rest' ↔
      (node = node' ∧ span = span') ∧ rest = rest' := by
  simp [originAtoms, span_ext_iff, and_assoc]

@[simp] lemma literalAtoms_marks (literal : Literal) : Marks literalAtoms literal := by
  intro other rest rest'
  cases literal <;> cases other <;> simp [literalAtoms]

@[simp] lemma optionalLocalAtoms_marks (var : Option Local) : Marks optionalLocalAtoms var := by
  intro other rest rest'
  cases var <;> cases other <;> simp [optionalLocalAtoms]

@[simp] lemma patternAtoms_marks (pattern : Pattern) : Marks patternAtoms pattern := by
  intro other rest rest'
  cases pattern <;> cases other <;> simp [patternAtoms]

mutual

theorem blockAtoms_marks : ∀ block : Core.Block, Marks blockAtoms block
  | ⟨node, span, stmts, tail⟩ => by
    rintro ⟨node', span', stmts', tail'⟩ rest rest'
    simp [blockAtoms, ← and_assoc, stmtsAtoms_marks stmts, optionalExprAtoms_marks tail]
    tauto

theorem stmtsAtoms_marks : ∀ stmts : List Core.Stmt, MarksAll stmtsAtoms stmts
  | [] => by
    rintro (_ | ⟨stmt', stmts'⟩) rest rest' <;> simp [stmtsAtoms]
  | stmt :: stmts => by
    rintro (_ | ⟨stmt', stmts'⟩) rest rest'
    · simp
    · have hrest := @stmtsAtoms_marks stmts stmts' rest rest'
      simp [stmtsAtoms, stmtAtoms_marks stmt]
      tauto

theorem stmtAtoms_marks : ∀ stmt : Core.Stmt, Marks stmtAtoms stmt
  | ⟨node, span, .assign place value⟩ => by
    rintro ⟨node', span', kind'⟩ rest rest'
    cases kind' <;>
      simp [stmtAtoms, placeAtoms_marks place, exprAtoms_marks value, and_assoc, and_left_comm]
  | ⟨node, span, .expr value⟩ => by
    rintro ⟨node', span', kind'⟩ rest rest'
    cases kind' <;> simp [stmtAtoms, exprAtoms_marks value, and_assoc, and_left_comm]
  | ⟨node, span, .letVar _ value⟩ | ⟨node, span, .ret value⟩ => by
    rintro ⟨node', span', kind'⟩ rest rest'
    cases kind' <;> simp [stmtAtoms, optionalExprAtoms_marks value, and_assoc, and_left_comm]
  | ⟨node, span, .breakLoop⟩ | ⟨node, span, .continueLoop⟩ => by
    rintro ⟨node', span', kind'⟩ rest rest'
    cases kind' <;> simp [stmtAtoms]
  | ⟨node, span, .loop cond body step⟩ => by
    rintro ⟨node', span', kind'⟩ rest rest'
    cases kind' <;> simp [stmtAtoms, optionalExprAtoms_marks cond, blockAtoms_marks body,
      optionalBlockAtoms_marks step, and_assoc, and_left_comm]

theorem optionalBlockAtoms_marks : ∀ block : Option Core.Block, Marks optionalBlockAtoms block
  | none => by
    rintro (_ | block') rest rest' <;> simp [optionalBlockAtoms]
  | some block => by
    rintro (_ | block') rest rest' <;> simp [optionalBlockAtoms, blockAtoms_marks block]

theorem placeAtoms_marks : ∀ place : Place, Marks placeAtoms place
  | .localVar _ | .globalVar _ => by
    intro other rest rest'
    cases other <;> simp [placeAtoms]
  | .field base index => by
    intro other rest rest'
    cases other <;> simp [placeAtoms, exprAtoms_marks base, and_assoc]

theorem optionalExprAtoms_marks : ∀ expr : Option Core.Expr, Marks optionalExprAtoms expr
  | none => by
    rintro (_ | expr') rest rest' <;> simp [optionalExprAtoms]
  | some expr => by
    rintro (_ | expr') rest rest' <;> simp [optionalExprAtoms, exprAtoms_marks expr]

theorem exprAtoms_marks : ∀ expr : Core.Expr, Marks exprAtoms expr
  | ⟨node, span, ty, kind⟩ => by
    rintro ⟨node', span', ty', kind'⟩ rest rest'
    simp [exprAtoms, exprKindAtoms_marks kind, and_assoc, and_left_comm]

theorem exprKindAtoms_marks : ∀ kind : Core.ExprKind, Marks exprKindAtoms kind
  | .literal _ | .localVar _ | .globalVar _ => by
    intro other rest rest'
    cases other <;> simp [exprKindAtoms]
  | .binary op lhs rhs => by
    intro other rest rest'
    cases other <;> simp [exprKindAtoms, exprAtoms_marks lhs, exprAtoms_marks rhs, and_assoc]
  | .unary _ value | .field value _ => by
    intro other rest rest'
    cases other <;> simp [exprKindAtoms, exprAtoms_marks value, and_assoc]
  | .cast value | .ok value | .err value | .propagate value => by
    intro other rest rest'
    cases other <;> simp [exprKindAtoms, exprAtoms_marks value]
  | .call callee args => by
    intro other rest rest'
    cases other <;> simp [exprKindAtoms, exprsAtoms_marks args, and_assoc]
  | .data inits => by
    intro other rest rest'
    cases other <;> simp [exprKindAtoms, initsAtoms_marks inits]
  | .ifElse cond body otherwise => by
    intro other rest rest'
    cases other <;> simp [exprKindAtoms, exprAtoms_marks cond, blockAtoms_marks body,
      blockAtoms_marks otherwise, and_assoc]
  | .matchOn scrutinee arms => by
    intro other rest rest'
    cases other <;>
      simp [exprKindAtoms, exprAtoms_marks scrutinee, armsAtoms_marks arms, and_assoc]
  | .block body => by
    intro other rest rest'
    cases other <;> simp [exprKindAtoms, blockAtoms_marks body]

theorem exprsAtoms_marks : ∀ exprs : List Core.Expr, MarksAll exprsAtoms exprs
  | [] => by
    rintro (_ | ⟨expr', exprs'⟩) rest rest' <;> simp [exprsAtoms]
  | expr :: exprs => by
    rintro (_ | ⟨expr', exprs'⟩) rest rest'
    · simp
    · have hrest := @exprsAtoms_marks exprs exprs' rest rest'
      simp [exprsAtoms, exprAtoms_marks expr]
      tauto

theorem initsAtoms_marks : ∀ inits : List Core.FieldInit, MarksAll initsAtoms inits
  | [] => by
    rintro (_ | ⟨init', inits'⟩) rest rest' <;> simp [initsAtoms]
  | ⟨index, value⟩ :: inits => by
    rintro (_ | ⟨⟨index', value'⟩, inits'⟩) rest rest'
    · simp
    · have hrest := @initsAtoms_marks inits inits' rest rest'
      simp [initsAtoms, exprAtoms_marks value]
      tauto

theorem armsAtoms_marks : ∀ arms : List Core.Arm, MarksAll armsAtoms arms
  | [] => by
    rintro (_ | ⟨arm', arms'⟩) rest rest' <;> simp [armsAtoms]
  | ⟨pattern, body, span⟩ :: arms => by
    rintro (_ | ⟨⟨pattern', body', span'⟩, arms'⟩) rest rest'
    · simp
    · have hrest := @armsAtoms_marks arms arms' rest rest'
      simp [armsAtoms, exprAtoms_marks body, span_ext_iff]
      tauto

end

lemma flatMap_marks {α : Type} {atoms : α → List Atom} (xs : List α)
    (h : ∀ x ∈ xs, Marks atoms x) : MarksAll (fun items => items.flatMap atoms) xs := by
  induction xs with
  | nil => rintro (_ | ⟨y, ys⟩) rest rest' <;> simp
  | cons x xs ih =>
    rintro (_ | ⟨y, ys⟩) rest rest'
    · simp
    · have hrest := @ih (fun z hz => h z (mem_cons_of_mem _ hz)) ys rest rest'
      simp only at hrest
      simp [@h x mem_cons_self]
      tauto

lemma list_marks {α : Type} {atoms : α → List Atom} (xs : List α) (h : ∀ x, Marks atoms x) :
    Marks (Atom.list atoms) xs := by
  intro ys rest rest'
  simpa [Atom.list] using @flatMap_marks _ _ xs (fun x _ => h x) ys rest rest'

lemma localAtoms_marks (decl : LocalDecl) : Marks localAtoms decl := by
  rintro ⟨name', ty', mutable', captured'⟩ rest rest'
  cases decl
  simp [localAtoms, and_assoc]

/-- A body is determined by its atoms. -/
theorem bodyAtoms_inj {a b : Body} (h : bodyAtoms a = bodyAtoms b) : a = b := by
  obtain ⟨name, params, ret, locals, block, span, node⟩ := a
  obtain ⟨name', params', ret', locals', block', span', node'⟩ := b
  have hvar (var : Local) : Marks (fun var : Local => [Atom.nat var.id]) var := by
    intro other rest rest'
    simp
  have horigin : originAtoms node span = originAtoms node' span' ↔ node = node' ∧ span = span' := by
    simpa using @originAtoms_append [] [] node node' span span'
  simp only [bodyAtoms, cons_append, append_assoc, List.cons.injEq, Atom.text.injEq,
    Atom.nat.injEq, @list_marks _ _ params hvar, @list_marks _ _ locals.toList localAtoms_marks,
    @blockAtoms_marks block, Array.toList_inj, horigin] at h
  obtain ⟨rfl, rfl, rfl, rfl, rfl, rfl, rfl⟩ := h
  rfl

/-! ### Programs -/

def fieldsAtoms (fields : List (String × Nat)) : List Atom :=
  fields.flatMap fun (name, ty) => [.text name, .nat ty]

lemma fieldsAtoms_append_nat {fields fields' : List (String × Nat)} {id id' : Nat}
    (h : fieldsAtoms fields ++ .nat id :: rest = fieldsAtoms fields' ++ .nat id' :: rest') :
    fields = fields' ∧ id = id' ∧ rest = rest' := by
  induction fields generalizing fields' with
  | nil =>
    cases fields' with
    | nil => simpa [fieldsAtoms] using h
    | cons field' fields' => simp [fieldsAtoms] at h
  | cons field fields ih =>
    cases fields' with
    | nil => simp [fieldsAtoms] at h
    | cons field' fields' =>
      simp only [fieldsAtoms, flatMap_cons, cons_append, nil_append,
        List.cons.injEq, Atom.text.injEq, Atom.nat.injEq] at h
      obtain ⟨rfl, hrest⟩ := ih h.2.2
      exact ⟨by rw [Prod.ext h.1 h.2.1], hrest⟩

/-- No number is in front, nor a text followed by just one: here no field begins. -/
def PastFields (atoms : List Atom) : Prop :=
  atoms = [] ∨ ∃ name x y rest, atoms = .text name :: .nat x :: .nat y :: rest

lemma fieldsAtoms_append_items {fields fields' : List (String × Nat)} (hrest : PastFields rest)
    (hrest' : PastFields rest') (h : fieldsAtoms fields ++ rest = fieldsAtoms fields' ++ rest') :
    fields = fields' ∧ rest = rest' := by
  -- behind a field there is no number, behind the first number of an item there is one
  have hfield : ∀ (field : String × Nat) (fields : List (String × Nat)) (rest later : List Atom),
      PastFields rest → PastFields later → later ≠ fieldsAtoms (field :: fields) ++ rest := by
    intro field fields rest later hrest hlater heq
    simp only [fieldsAtoms, flatMap_cons, cons_append, nil_append] at heq
    rcases hlater with rfl | ⟨name, x, y, tail, rfl⟩
    · cases heq
    · simp only [List.cons.injEq] at heq
      have hbehind := heq.2.2
      cases fields with
      | nil => rcases hrest with rfl | ⟨_, _, _, _, rfl⟩ <;> simp at hbehind
      | cons next fields => simp at hbehind
  induction fields generalizing fields' with
  | nil =>
    cases fields' with
    | nil => exact ⟨rfl, h⟩
    | cons field' fields' => exact absurd h (hfield field' fields' rest' rest hrest' hrest)
  | cons field fields ih =>
    cases fields' with
    | nil => exact absurd h.symm (hfield field fields rest rest' hrest hrest')
    | cons field' fields' =>
      simp only [fieldsAtoms, flatMap_cons, cons_append, nil_append,
        List.cons.injEq, Atom.text.injEq, Atom.nat.injEq] at h
      obtain ⟨rfl, hlast⟩ := ih h.2.2
      exact ⟨by rw [Prod.ext h.1 h.2.1], hlast⟩

def dataOf (types : TypeTable) (id : Nat) : DataType :=
  (types.data? id).getD { name := "" }

def SameData (types types' : TypeTable) : StaticType → Prop
  | .data id => dataOf types id = dataOf types' id
  | _ => True

lemma dataType_ext {a b : DataType} (hname : a.name = b.name) (hfields : a.fields = b.fields) :
    a = b := by
  cases a
  cases b
  simp_all

section Types

variable {types types' : TypeTable}

/-- A static type can be read off the front of its atoms where fields that may stand last can be
told from what follows. -/
lemma typeAtoms_marks {ty ty' : StaticType}
    (hfields : ∀ fields fields', fieldsAtoms fields ++ rest = fieldsAtoms fields' ++ rest' →
      fields = fields' ∧ rest = rest')
    (h : typeAtoms types ty ++ rest = typeAtoms types' ty' ++ rest') :
    ty = ty' ∧ SameData types types' ty ∧ rest = rest' := by
  cases ty <;> cases ty' <;> simp [typeAtoms] at h ⊢
  case data.data id id' =>
    obtain ⟨rfl, hname, h⟩ := h
    obtain ⟨heq, hrest⟩ := hfields _ _ h
    exact ⟨rfl, dataType_ext hname heq, hrest⟩
  case result.result => exact ⟨⟨h.1, h.2.1⟩, trivial, h.2.2⟩
  all_goals exact ⟨trivial, h⟩

def entriesAtoms (types : TypeTable) (entries : List (Nat × StaticType)) : List Atom :=
  entries.flatMap fun (id, ty) => .nat id :: typeAtoms types ty

lemma entriesAtoms_marks {entries entries' : List (Nat × StaticType)} (hrest : PastFields rest)
    (hrest' : PastFields rest') (hlength : entries.length = entries'.length)
    (h : entriesAtoms types entries ++ rest = entriesAtoms types' entries' ++ rest') :
    entries = entries' ∧ (∀ entry ∈ entries, SameData types types' entry.2) ∧ rest = rest' := by
  induction entries generalizing entries' with
  | nil =>
    obtain rfl := length_eq_zero_iff.mp hlength.symm
    exact ⟨rfl, by simp, h⟩
  | cons entry entries ih =>
    cases entries' with
    | nil => cases hlength
    | cons entry' entries' =>
      obtain ⟨id, ty⟩ := entry
      obtain ⟨id', ty'⟩ := entry'
      have hlen : entries.length = entries'.length := Nat.succ.inj hlength
      simp only [entriesAtoms, flatMap_cons, cons_append, append_assoc,
        List.cons.injEq, Atom.nat.injEq] at h
      obtain ⟨rfl, h⟩ := h
      have htype := typeAtoms_marks (fun fields fields' hfields => ?_) h
      · obtain ⟨rfl, hsame, hlast⟩ := htype
        obtain ⟨rfl, hall, hend⟩ := ih hlen hlast
        refine ⟨rfl, fun other hother => ?_, hend⟩
        rcases mem_cons.mp hother with rfl | hother
        · exact hsame
        · exact hall other hother
      · -- the number of the next type ends the fields, and behind the last type the items do
        cases entries with
        | nil =>
          obtain rfl := length_eq_zero_iff.mp hlen.symm
          exact fieldsAtoms_append_items hrest hrest' hfields
        | cons next entries =>
          cases entries' with
          | nil => cases hlen
          | cons next' entries' =>
            simp only [flatMap_cons, cons_append] at hfields ⊢
            obtain ⟨hsame, hid, hbehind⟩ := fieldsAtoms_append_nat hfields
            exact ⟨hsame, by rw [hid, hbehind]⟩

end Types

/-! ### Items -/

def PastNumbers (atoms : List Atom) : Prop :=
  ∀ value rest, atoms ≠ .nat value :: rest

lemma map_nat_append {values values' : List Nat} (hrest : PastNumbers rest)
    (hrest' : PastNumbers rest') (h : values.map Atom.nat ++ rest = values'.map Atom.nat ++ rest') :
    values = values' ∧ rest = rest' := by
  induction values generalizing values' with
  | nil =>
    cases values' with
    | nil => exact ⟨rfl, h⟩
    | cons value' values' => exact absurd h (hrest _ _)
  | cons value values ih =>
    cases values' with
    | nil => exact absurd h.symm (hrest' _ _)
    | cons value' values' =>
      simp only [map_cons, cons_append, List.cons.injEq, Atom.nat.injEq] at h
      obtain ⟨rfl, hlast⟩ := ih h.2
      exact ⟨by rw [h.1], hlast⟩

def signatureNumbers (item : LoadedItem) : List Nat :=
  match item.kind with
  | .function params ret body => 0 :: params.map (·.ty) ++ [ret, body.isSome.toNat]
  | .global ty mutable _ => [1, ty, mutable.toNat]

lemma signatureAtoms_eq (item : LoadedItem) :
    signatureAtoms item = .text item.name :: (signatureNumbers item).map Atom.nat := by
  obtain ⟨node, span, name, kind⟩ := item
  cases kind <;> simp [signatureAtoms, signatureNumbers, Atom.bool]

lemma pastNumbers_signatures (items : List LoadedItem) :
    PastNumbers (items.flatMap signatureAtoms) := by
  intro value rest h
  cases items with
  | nil => cases h
  | cons item items => simp [signatureAtoms_eq] at h

lemma pastFields_signatures (items : List LoadedItem) :
    PastFields (items.flatMap signatureAtoms) := by
  cases items with
  | nil => exact .inl rfl
  | cons item items =>
    obtain ⟨node, span, name, kind⟩ := item
    refine .inr ⟨name, ?_⟩
    cases kind with
    | global ty mutable init => simp [signatureAtoms]
    | function params ret body => cases params <;> simp [signatureAtoms]

/-- The signatures of items tell which ones are globals, and of which types. -/
lemma signatures_globals {items items' : List LoadedItem}
    (h : items.flatMap signatureAtoms = items'.flatMap signatureAtoms) :
    items.filterMap Lowering.Environment.globalType? =
      items'.filterMap Lowering.Environment.globalType? := by
  induction items generalizing items' with
  | nil =>
    cases items' with
    | nil => rfl
    | cons item' items' => simp [signatureAtoms_eq] at h
  | cons item items ih =>
    cases items' with
    | nil => simp [signatureAtoms_eq] at h
    | cons item' items' =>
      simp only [flatMap_cons, signatureAtoms_eq, cons_append, List.cons.injEq,
        Atom.text.injEq] at h
      obtain ⟨hname, h⟩ := h
      obtain ⟨hnumbers, hlast⟩ := map_nat_append (pastNumbers_signatures items)
        (pastNumbers_signatures items') h
      have hglobal : Lowering.Environment.globalType? item =
          Lowering.Environment.globalType? item' := by
        obtain ⟨node, span, name, kind⟩ := item
        obtain ⟨node', span', name', kind'⟩ := item'
        cases kind <;> cases kind' <;>
          simp_all [signatureNumbers, Lowering.Environment.globalType?]
      rw [filterMap_cons, filterMap_cons, hglobal, ih hlast]

/-- What the atoms of two programs have in common when they are the same. -/
theorem fingerprintAtoms_eq {prog program' : Program}
    (h : fingerprintAtoms prog = fingerprintAtoms program') :
    prog.types.types = program'.types.types ∧
      (∀ id ty, prog.types.get? id = some ty → SameData prog.types program'.types ty) ∧
      prog.items.filterMap Lowering.Environment.globalType? =
        program'.items.filterMap Lowering.Environment.globalType? := by
  simp only [fingerprintAtoms, cons_append, List.cons.injEq, Atom.nat.injEq] at h
  obtain ⟨hsize, h⟩ := h
  have hlength (types : TypeTable) : (Arena.entries types.types).length = types.size := by
    simp [Arena.entries, Arena.keys, TypeTable.size]
  obtain ⟨hentries, hsame, hitems⟩ := entriesAtoms_marks (pastFields_signatures _)
    (pastFields_signatures _) (by rw [hlength, hlength, hsize]) h
  have helements (types : TypeTable) : (Arena.entries types.types).map Prod.snd =
      types.types.toList := by
    rw [Arena.entries, map_snd_zip (by simp [Arena.keys])]
  refine ⟨?_, fun id ty hget => ?_, signatures_globals hitems⟩
  · rw [← Array.toList_inj, ← helements, ← helements, hentries]
  · have hmem : ty ∈ (Arena.entries prog.types.types).map Prod.snd := by
      rw [helements]
      exact Array.mem_toList_iff.mpr (Array.mem_of_getElem? hget)
    obtain ⟨entry, hentry, rfl⟩ := mem_map.mp hmem
    exact hsame entry hentry

end SsaLowering.Proofs
