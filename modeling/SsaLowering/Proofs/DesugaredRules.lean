import SsaLowering.Proofs.BodyRules
import SsaLowering.Proofs.Desugaring

/-!
# The rules of a body hold of its core form

Desugaring keeps the types and the flow of what it translates, and the sites that it adds keep to
every lawful set of rules. It cannot fail on a body that keeps to strict rules.
-/

namespace SsaLowering.Proofs

open Source (TypeTable LoadedBlock LoadedStmt LoadedExpr)
open SsaLowering.Core List

variable {binding ty : Nat} {name : String}

/-! ### Rules -/

/-- Rules that what desugaring adds keeps to. -/
structure Rules.Lawful (R : Rules) : Prop where
  literal_bool : ∀ reached value, R.Hold reached (.literal TypeTable.bool (.bool value))
  literal_int : ∀ reached value, R.Hold reached (.literal TypeTable.int (.int value))
  compare : ∀ reached op, op = BinaryOp.lt ∨ op = BinaryOp.le →
    R.Hold reached (.binary op TypeTable.int TypeTable.int TypeTable.bool)
  add : ∀ reached, R.Hold reached (.binary .add TypeTable.int TypeTable.int TypeTable.int)
  cond_bool : ∀ reached, R.Hold reached (.cond TypeTable.bool)
  value_unit : ∀ reached ty, R.Hold reached (.value TypeTable.unit ty)
  value_tail : ∀ reached a b c, R.Hold reached (.value a b) → R.Hold reached (.tail b c) →
    R.Hold reached (.value a c)
  tail_unit : ∀ reached, R.Hold reached (.tail TypeTable.unit TypeTable.unit)
  bind_true : R.always (.bind true)
  init_refl : ∀ reached ty, R.Hold reached (.init ty ty)
  assign : ∀ fixed expected actual, R.always (.assign fixed TypeTable.int TypeTable.int) →
    R.always (.assign fixed expected actual)
  assign_refl : ∀ fixed ty, R.reached (.assign fixed ty ty)

/-- Rules under which desugaring cannot fail. -/
structure Rules.Strict (R : Rules) (types : TypeTable) : Prop where
  field : ∀ ty name, R.always (.field ty name) →
    ∃ data, dataOf? types ty = some data ∧ (data.field? name).isSome
  data : ∀ ty names, R.always (.data ty names) → ∃ data, dataOf? types ty = some data ∧
    names.length = data.fields.length ∧
    ∃ indices, names.mapM (fun name => (data.field? name).map Prod.fst) = some indices ∧ indices.Nodup
  result : ∀ ty reached, R.always (.pattern .result ty reached) →
    ∃ ok err, payloadsOf? types ty = some (ok, err)
  malformed : ¬ R.always .malformed

/-! ### Steps of desugaring -/

/-- The locals of bindings have the types of the bindings. -/
structure Known (Γ : Bindings) (L : Locals) : Prop extends LocalsOk L where
  typed : ∀ p ∈ L.bindings, ((L.decls[p.2.id]?).map LocalDecl.ty) = some (Γ.ty p.1)

/-- Locals are only added, and those that are there keep their types. -/
structure DeclsGrow (before after : Locals) : Prop extends LocalsGrow before after where
  decls : ∀ (i : Nat) (decl : LocalDecl), before.decls[i]? = some decl →
    ∃ decl' : LocalDecl, after.decls[i]? = some decl' ∧
    decl'.ty = decl.ty ∧ (decl.mutable = true → decl'.mutable = true) ∧
      (decl.captured = true → decl'.captured = true)

lemma DeclsGrow.refl (L : Locals) : DeclsGrow L L :=
  ⟨.refl L, fun _ decl h => ⟨decl, h, rfl, id, id⟩⟩

lemma DeclsGrow.trans {L0 L1 L2 : Locals} (h : DeclsGrow L0 L1) (h' : DeclsGrow L1 L2) :
    DeclsGrow L0 L2 := by
  refine ⟨h.toLocalsGrow.trans h'.toLocalsGrow, fun i decl hdecl => ?_⟩
  obtain ⟨decl1, hdecl1, hty1, hmutable1, hcaptured1⟩ := h.decls i decl hdecl
  obtain ⟨decl2, hdecl2, hty2, hmutable2, hcaptured2⟩ := h'.decls i decl1 hdecl1
  exact ⟨decl2, hdecl2, hty2.trans hty1, hmutable2 ∘ hmutable1, hcaptured2 ∘ hcaptured1⟩

lemma Known.typed_after {Γ : Bindings} {L L' : Locals} (hL : Known Γ L) (h : DeclsGrow L L')
    {p : Nat × Local} (hp : p ∈ L.bindings) :
    ((L'.decls[p.2.id]?).map LocalDecl.ty) = some (Γ.ty p.1) := by
  obtain ⟨decl, hget, hty⟩ := Option.map_eq_some_iff.mp (hL.typed p hp)
  obtain ⟨decl', hget', hty', -⟩ := h.decls _ _ hget
  rw [hget', Option.map_some, hty', hty]

lemma getElem?_push_decl {L : Locals} {i : Nat} {known : LocalDecl} (h : L.decls[i]? = some known)
    (decl : LocalDecl) : ∃ decl', (L.decls.push decl)[i]? = some decl' ∧ decl'.ty = known.ty ∧
      (known.mutable = true → decl'.mutable = true) ∧
      (known.captured = true → decl'.captured = true) := by
  have hlt := (Array.getElem?_eq_some_iff.mp h).1
  refine ⟨known, ?_, rfl, id, id⟩
  rw [Array.getElem?_push_lt hlt]
  exact (Array.getElem?_eq_getElem hlt).symm.trans h

/-- The declarations of a body once it is in core form. A local that stands for no binding is not
assigned to. -/
def declsOf (Γ : Bindings) (L : Locals) : Decls where
  decls := L.decls
  fixed var := ((L.bindings.find? (·.2 = var)).map fun p => Γ.fixed p.1).getD true

/-- What a step of desugaring returns is right whatever the locals of the whole body are. -/
def Yields {α : Type} (must : Prop) (Γ : Bindings) (m : DesugarM α) (Q : Decls → α → Prop) : Prop :=
  ∀ L, Known Γ L → (must → ∃ a L', m L = .ok (a, L')) ∧
    ∀ a L', m L = .ok (a, L') → Known Γ L' ∧ DeclsGrow L L' ∧
      ∀ F, Known Γ F → DeclsGrow L' F → Q (declsOf Γ F) a

namespace Yields

variable {α β : Type} {must : Prop} {Γ : Bindings} {m : DesugarM α} {Q : Decls → α → Prop}

lemma pure {a : α} (h : ∀ C, Q C a) : Yields must Γ (Pure.pure a) Q := by
  refine fun L hL => ⟨fun _ => ⟨a, L, rfl⟩, ?_⟩
  rintro _ _ ⟨⟩
  exact ⟨hL, .refl L, fun F _ _ => h _⟩

lemma inconsistent {span : Span} {cause : Inconsistency} (h : ¬ must) :
    Yields must Γ (Core.inconsistent span cause) Q := by
  refine fun L hL => ⟨fun hmust => absurd hmust h, ?_⟩
  rintro _ _ ⟨⟩

lemma bind {f : α → DesugarM β} {Q' : Decls → β → Prop} (hm : Yields must Γ m Q)
    (hf : ∀ a C, Q C a → Yields must Γ (f a) fun C b => Q C a → Q' C b) :
    Yields must Γ (m >>= f) Q' := by
  intro L hL
  obtain ⟨hsome, hright⟩ := hm L hL
  have hrun (a : α) (L' : Locals) (h : m L = .ok (a, L')) : (m >>= f) L = f a L' := by
    change (m L >>= fun p => f p.1 p.2) = _
    rw [h]
    rfl
  have hnext (a : α) (L' : Locals) (h : m L = .ok (a, L')) :
      Yields must Γ (f a) fun C b => Q C a → Q' C b :=
    let ⟨hL', _, hQ⟩ := hright a L' h
    hf a _ (hQ L' hL' (.refl L'))
  constructor
  · intro hmust
    obtain ⟨a, L', h⟩ := hsome hmust
    rw [hrun a L' h]
    exact (hnext a L' h L' (hright a L' h).1).1 hmust
  · intro b L'' h
    cases hr : m L with
    | error e =>
      change (m L >>= fun p => f p.1 p.2) = _ at h
      rw [hr] at h
      cases h
    | ok p =>
      obtain ⟨a, L'⟩ := p
      rw [hrun a L' hr] at h
      obtain ⟨hL', hext', hQ⟩ := hright a L' hr
      obtain ⟨hL'', hext'', hQ'⟩ := (hnext a L' hr L' hL').2 b L'' h
      exact ⟨hL'', hext'.trans hext'', fun F hF hlater => hQ' F hF hlater (hQ F hF (hext''.trans hlater))⟩

lemma inconsistent_bind {span : Span} {cause : Inconsistency} {f : β → DesugarM α} (h : ¬ must) :
    Yields must Γ (Core.inconsistent span cause >>= f) Q := by
  refine fun L hL => ⟨fun hmust => absurd hmust h, ?_⟩
  rintro _ _ ⟨⟩

lemma mono {Q' : Decls → α → Prop} (hm : Yields must Γ m Q) (h : ∀ C a, Q C a → Q' C a) :
    Yields must Γ m Q' := by
  intro L hL
  obtain ⟨hsome, hright⟩ := hm L hL
  refine ⟨hsome, fun a L' hr => ?_⟩
  obtain ⟨hL', hext, hQ⟩ := hright a L' hr
  exact ⟨hL', hext, fun F hF hlater => h _ a (hQ F hF hlater)⟩

lemma map {f : α → β} {Q' : Decls → β → Prop} (hm : Yields must Γ m Q)
    (h : ∀ C a, Q C a → Q' C (f a)) : Yields must Γ (m >>= fun a => Pure.pure (f a)) Q' :=
  hm.bind fun a _ _ => .pure fun C => h C a

end Yields

/-- A local stands for a binding, with its type. -/
structure Stands (Γ : Bindings) (binding : Nat) (changes : Bool) (C : Decls) (var : Local) :
    Prop where
  ty_eq : C.ty var = Γ.ty binding
  fixed_eq : C.fixed var = Γ.fixed binding
  changes : changes = true → C.changes var = true

section Steps

variable {must : Prop} {Γ : Bindings}

lemma Known.fixed_eq {F : Locals} (hF : Known Γ F) {p : Nat × Local} (hp : p ∈ F.bindings) :
    (declsOf Γ F).fixed p.2 = Γ.fixed p.1 := by
  have hfound : (F.bindings.find? (·.2 = p.2)).isSome := by
    simp only [find?_isSome, decide_eq_true_eq]
    exact ⟨p, hp, rfl⟩
  obtain ⟨q, hq⟩ := Option.isSome_iff_exists.1 hfound
  have heq : q.2 = p.2 := by simpa using find?_some hq
  have hbinding : q.1 = p.1 := (hF.matched q (mem_of_find?_eq_some hq) p hp).2 heq
  simp [declsOf, hq, hbinding]

lemma Known.ty_eq {F : Locals} (hF : Known Γ F) {p : Nat × Local} (hp : p ∈ F.bindings) :
    (declsOf Γ F).ty p.2 = Γ.ty p.1 := by
  change ((F.decls[p.2.id]?).map LocalDecl.ty).getD 0 = _
  rw [hF.typed p hp, Option.getD_some]

lemma bindLocal_yields {decl : LocalDecl} (hty : Γ.ty binding = decl.ty) :
    Yields must Γ (bindLocal binding decl)
      (Stands Γ binding (decl.mutable || decl.captured)) := by
  intro L hL
  have hstands {var : Local} {L' F : Locals} (hF : Known Γ F) (hlater : DeclsGrow L' F)
      (hvar : (binding, var) ∈ L'.bindings)
      (hdecl : ∃ decl', L'.decls[var.id]? = some decl' ∧
        (decl.mutable = true → decl'.mutable = true) ∧
        (decl.captured = true → decl'.captured = true)) :
      Stands Γ binding (decl.mutable || decl.captured) (declsOf Γ F) var := by
    have hmem := hlater.kept _ hvar
    refine ⟨hF.ty_eq hmem, hF.fixed_eq hmem, fun hchanges => ?_⟩
    obtain ⟨decl1, hget1, hmutable1, hcaptured1⟩ := hdecl
    obtain ⟨decl2, hget2, -, hmutable2, hcaptured2⟩ := hlater.decls _ _ hget1
    change ((F.decls[var.id]?).map _).getD false = true
    rw [hget2, Option.map_some, Option.getD_some]
    rcases Bool.or_eq_true_iff.mp hchanges with h | h
    · rw [hmutable2 (hmutable1 h), Bool.true_or]
    · rw [hcaptured2 (hcaptured1 h), Bool.or_true]
  constructor
  · intro _
    cases hlookup : L.bindings.lookup binding with
    | none => exact ⟨_, _, bindLocal_new hlookup decl⟩
    | some known => exact ⟨_, _, bindLocal_known hlookup decl⟩
  · intro var L' h
    obtain ⟨hok, hgrow, -⟩ := bindLocal_translates binding decl L var L' hL.toLocalsOk h
    cases hlookup : L.bindings.lookup binding with
    | some known =>
      rw [bindLocal_known hlookup] at h
      cases h
      have hmem := mem_of_lookup_eq_some hlookup
      have hext : DeclsGrow L _ := ⟨hgrow, fun i decl0 hdecl0 => by
        simp only [Array.getElem?_modify]
        split
        · next heq =>
          rw [hdecl0]
          exact ⟨_, rfl, rfl, by simp +contextual, by simp +contextual⟩
        · exact ⟨decl0, hdecl0, rfl, id, id⟩⟩
      refine ⟨⟨hok, fun p hp => hL.typed_after hext hp⟩, hext, fun F hF hlater => hstands hF hlater hmem ?_⟩
      obtain ⟨decl0, hget, -⟩ := Option.map_eq_some_iff.mp (hL.typed _ hmem)
      refine ⟨_, by rw [Array.getElem?_modify, if_pos rfl, hget]; rfl, ?_, ?_⟩
      · simp +contextual
      · simp +contextual
    | none =>
      rw [bindLocal_new hlookup] at h
      cases h
      have hnew : (L.decls.push decl)[L.decls.size]? = some decl := by simp
      have hext : DeclsGrow L _ := ⟨hgrow, fun i _ hknown => getElem?_push_decl hknown decl⟩
      have hknown : Known Γ _ := ⟨hok, fun p hp => by
        rcases mem_cons.1 hp with rfl | hp
        · rw [hnew, Option.map_some, hty]
        · exact hL.typed_after hext hp⟩
      exact ⟨hknown, hext, fun F hF hlater =>
        hstands hF hlater mem_cons_self ⟨decl, hnew, id, id⟩⟩

/-- A local of its own has its type, and nothing is assigned to it. -/
lemma freshLocal_yields (decl : LocalDecl) : Yields must Γ (freshLocal decl) fun C var =>
    C.ty var = decl.ty ∧ C.fixed var = true := by
  intro L hL
  refine ⟨fun _ => ⟨_, _, rfl⟩, ?_⟩
  rintro var L' h
  change (Except.ok ((⟨L.decls.size⟩ : Local), { L with decls := L.decls.push decl }) :
    Except InternalError _) = _ at h
  cases h
  have hnew : (L.decls.push decl)[L.decls.size]? = some decl := by simp
  have hext : DeclsGrow L { L with decls := L.decls.push decl } :=
    ⟨.push L decl, fun i _ hknown => getElem?_push_decl hknown decl⟩
  refine ⟨⟨hL.push decl, fun p hp => hL.typed_after hext hp⟩, hext, fun F hF hlater => ⟨?_, ?_⟩⟩
  · obtain ⟨decl', hget', hty', -⟩ := hlater.decls _ _ hnew
    change ((F.decls[L.decls.size]?).map LocalDecl.ty).getD 0 = _
    rw [hget', Option.map_some, Option.getD_some, hty']
  · have hnone : F.bindings.find? (·.2 = ⟨L.decls.size⟩) = none := by
      rw [find?_eq_none]
      intro p hp heq
      have hvar : p.2 = ⟨L.decls.size⟩ := by simpa using heq
      rcases hlater.added p hp with hp | hp
      · have := hL.declared p hp
        rw [hvar] at this
        exact lt_irrefl _ this
      · rw [hvar] at hp
        simp at hp
    change ((F.bindings.find? _).map _).getD true = true
    rw [hnone]
    rfl

lemma eagerOp_yields {op : Source.BinaryOp} {op' : BinaryOp} (h : BinaryOp.ofSource? op = some op')
    (span : Span) : Yields must Γ (eagerOp span op) fun _ result => result = op' := by
  rw [eagerOp, h]
  exact .pure fun _ => rfl

lemma fieldIndex_yields {types : TypeTable} (span : Span)
    (h : must → ∃ data, dataOf? types ty = some data ∧ (data.field? name).isSome) :
    Yields must Γ (fieldIndex types ty name span) fun _ _ => IsData types ty := by
  rw [fieldIndex]
  split
  · next hnone =>
    refine .inconsistent fun hmust => ?_
    obtain ⟨data, hdata, -⟩ := h hmust
    rw [hnone] at hdata
    cases hdata
  · next data hdata =>
    split
    · exact .pure fun _ => ⟨data, hdata⟩
    · next hnone =>
      refine .inconsistent fun hmust => ?_
      obtain ⟨data', hdata', hfield⟩ := h hmust
      rw [hdata] at hdata'
      cases hdata'
      rw [hnone] at hfield
      cases hfield

end Steps

/-! ### Constructs -/

/-- A core expression has the type and the flow of its source, and keeps to the rules. -/
structure ExprForm (R : Rules) (types : TypeTable) (live : Bool) (expr : LoadedExpr) (C : Decls)
    (expr' : Expr) : Prop where
  ty_eq : expr'.ty = expr.ty
  flow_eq : flowOfExpr expr' = flowOfSourceExpr expr
  obeys : ExprObeys R types C live expr'

/-- The same for a block. -/
structure BlockForm (R : Rules) (types : TypeTable) (live : Bool) (block : LoadedBlock) (C : Decls)
    (block' : Block) : Prop where
  tail_eq : block'.tail.map Expr.ty = block.tail.map Source.Expr.ty
  flow_eq : flowOfBlock block' = flowOfSourceBlock block
  obeys : BlockObeys R types C live block'

/-- The same for statements, which may be those of one source statement. -/
structure StmtsForm (R : Rules) (types : TypeTable) (live : Bool) (flow : Flow) (C : Decls)
    (stmts : List Stmt) : Prop where
  flow_eq : flowOfStmts stmts = flow
  obeys : StmtsObey R types C live stmts

lemma flowOfStmts_append (stmts rest : List Stmt) :
    flowOfStmts (stmts ++ rest) = (flowOfStmts stmts).andThen (flowOfStmts rest) := by
  induction stmts with
  | nil => simp [flowOfStmts]
  | cons stmt stmts ih => simp [flowOfStmts, ih, Flow.andThen_assoc]

lemma flowOfStmts_singleton (stmt : Stmt) : flowOfStmts [stmt] = flowOfStmt stmt := by
  simp [flowOfStmts]

section Forms

variable {R : Rules} {types : TypeTable} {Γ : Bindings} {C : Decls} {live : Bool}

lemma stmtsObey_append {stmts rest : List Stmt} :
    StmtsObey R types C live (stmts ++ rest) ↔ StmtsObey R types C live stmts ∧
      StmtsObey R types C (live && (flowOfStmts stmts).behind) rest := by
  induction stmts generalizing live with
  | nil => simp [StmtsObey, flowOfStmts]
  | cons stmt stmts ih =>
    simp only [cons_append, StmtsObey, ih, flowOfStmts, Flow.behind_andThen, Bool.and_assoc,
      and_assoc]

lemma stmtsObey_singleton {stmt : Stmt} :
    StmtsObey R types C live [stmt] ↔ StmtObeys R types C live stmt := by
  simp [StmtsObey]

lemma StmtsForm.singleton {flow : Flow} {stmt : Stmt} (hflow : flowOfStmt stmt = flow)
    (h : StmtObeys R types C live stmt) : StmtsForm R types live flow C [stmt] :=
  ⟨(flowOfStmts_singleton stmt).trans hflow, stmtsObey_singleton.mpr h⟩

lemma blockType_eq {block : LoadedBlock} {block' : Block}
    (h : block'.tail.map Expr.ty = block.tail.map Source.Expr.ty) :
    blockType block' = sourceBlockType block := by
  obtain ⟨_, _, _, tail⟩ := block
  obtain ⟨_, _, _, tail'⟩ := block'
  simp only [blockType, sourceBlockType]
  rw [h]

lemma blockObeys_wrap {expr : Expr} :
    BlockObeys R types C live (.wrap expr) ↔ ExprObeys R types C live expr := by
  simp [Block.wrap, BlockObeys, StmtsObey, flowOfStmts]

lemma flowOfBlock_wrap (expr : Expr) : flowOfBlock (.wrap expr) = flowOfExpr expr := by
  simp [Block.wrap, flowOfBlock, flowOfStmts]

lemma blockType_wrap (expr : Expr) : blockType (.wrap expr) = expr.ty :=
  rfl

lemma skipped_obeys (hR : R.Lawful) (node : Nat) (span : Span) (value : Bool) :
    BlockObeys R types C live (skipped node span value) := by
  rw [skipped, blockObeys_wrap, ExprObeys]
  exact hR.literal_bool live value

lemma flowOfBlock_skipped (node : Nat) (span : Span) (value : Bool) :
    flowOfBlock (skipped node span value) = .pass := by
  rw [skipped, flowOfBlock_wrap, flowOfExpr]

lemma Stands.bind_always (hR : R.Lawful) {changes : Bool} {var : Local}
    (h : Stands Γ binding changes C var) (hbind : R.always (.bind (changes || Γ.fixed binding))) :
    R.always (.bind (C.changes var || C.fixed var)) := by
  rw [h.fixed_eq]
  cases hchanges : C.changes var with
  | true => exact hR.bind_true
  | false =>
    cases changes with
    | true => exact absurd (h.changes rfl) (by simp [hchanges])
    | false => exact hbind

lemma bindVar_yields (hR : R.Lawful) (must : Prop) {var : Option Source.Binding}
    (h : ∀ v ∈ var, Introduces R Γ ty v.binding v.mutable) :
    Yields must Γ (var.mapM (bindVar ty)) fun C var' => ∀ v ∈ var', Starts R C ty v := by
  cases var with
  | none => exact .pure fun C => by simp
  | some var =>
    obtain ⟨hty, hbind⟩ := h var rfl
    refine (bindLocal_yields hty).map fun C known hknown => ?_
    rintro v ⟨⟩
    refine ⟨hknown.ty_eq.trans hty, hknown.bind_always hR ?_⟩
    rwa [Bool.or_false]

lemma desugarPattern_yields (hR : R.Lawful) {reached : Bool} {scrutinee : Nat} (span : Span)
    {pattern : Source.Pattern} (h : SourcePatternObeys R types Γ scrutinee pattern)
    (hsite : R.always (.pattern (sourceShapeOf pattern) scrutinee reached)) :
    Yields (R.Strict types) Γ (desugarPattern types scrutinee span pattern) fun C pattern' =>
      PatternObeys R types C scrutinee pattern' ∧ shapeOf pattern' = sourceShapeOf pattern := by
  have hnone (hpayloads : payloadsOf? types scrutinee = none)
      (hshape : sourceShapeOf pattern = .result) : ¬ R.Strict types := by
    intro hstrict
    rw [hshape] at hsite
    obtain ⟨ok, err, hsome⟩ := hstrict.result _ _ hsite
    rw [hpayloads] at hsome
    cases hsome
  cases pattern with
  | wildcard | int _ | bool _ => exact .pure fun C => ⟨trivial, rfl⟩
  | bind var =>
    obtain ⟨hty, hbind⟩ := h
    refine (bindLocal_yields hty).map fun C known hknown => ⟨⟨hknown.ty_eq.trans hty, ?_⟩, rfl⟩
    refine hknown.bind_always hR ?_
    rwa [Bool.or_false]
  | ok var | err var =>
    rw [desugarPattern]
    split
    · next ok err hpayloads =>
      refine (bindVar_yields hR _ fun v hv => h v hv ok err hpayloads).map fun C var' hvar => ?_
      exact ⟨⟨ok, err, hpayloads, hvar⟩, rfl⟩
    · next hpayloads => exact .inconsistent (hnone hpayloads rfl)

lemma isIrrefutable_eq (pattern : Pattern) :
    pattern.isIrrefutable = decide (shapeOf pattern = .any) := by
  cases pattern <;> rfl

lemma countedLoop_obeys (hR : R.Lawful) {counter bound : Local} {first last : Expr} {body : Block}
    (hfirst : ExprObeys R types C live first)
    (hlast : ExprObeys R types C (live && (flowOfExpr first).behind) last)
    (hbody : BlockObeys R types C
      (live && (flowOfExpr first).behind && (flowOfExpr last).behind) body)
    (hcounter : C.ty counter = first.ty) (hchanges : C.changes counter = true)
    (hbound : C.ty bound = last.ty) (hfixed : C.fixed bound = true)
    (hint : (live && (flowOfExpr first).behind && (flowOfExpr last).behind) = true →
      first.ty = TypeTable.int ∧ last.ty = TypeTable.int)
    (hassign : R.always (.assign (C.fixed counter) TypeTable.int TypeTable.int))
    (node : Nat) (span : Span) (inclusive : Bool) :
    BlockObeys R types C live (countedLoop node span counter bound first last inclusive body) := by
  simp only [countedLoop, BlockObeys, StmtsObey, StmtObeys, ExprObeys, flowOfStmt, flowOfExpr,
    Flow.behind_pass, Flow.andThen_pass, Bool.and_true, and_true, hcounter, hbound, hchanges, hfixed,
    Bool.true_or, Bool.or_true]
  refine ⟨⟨hfirst, ?_, ?_⟩, ⟨hlast, ?_, ?_⟩, ⟨?_, ?_, ?_⟩, ?_, hbody, ⟨?_, ?_, ?_⟩, ?_⟩
  · exact hR.init_refl _ _
  · exact hR.bind_true
  · exact hR.init_refl _ _
  · exact hR.bind_true
  · exact fun h => (hint h).1.symm
  · exact fun h => (hint h).2.symm
  · refine hR.compare _ _ ?_
    cases inclusive
    · exact .inl rfl
    · exact .inr rfl
  · exact hR.cond_bool _
  · exact fun h => (hint (Bool.and_eq_true_iff.mp h).1).1.symm
  · exact hR.literal_int _ _
  · exact hR.add _
  · refine ⟨hR.assign _ _ _ hassign, fun h => ?_⟩
    rw [(hint (Bool.and_eq_true_iff.mp h).1).1]
    exact hR.assign_refl _ _

lemma flowOfBlock_countedLoop (node : Nat) (span : Span) (counter bound : Local) (first last : Expr)
    (inclusive : Bool) (body : Block) :
    flowOfBlock (countedLoop node span counter bound first last inclusive body) =
      (flowOfExpr first).andThen ((flowOfExpr last).andThen
        (.loop (some .pass) (flowOfBlock body) (some .pass))) := by
  simp [countedLoop, flowOfBlock, flowOfStmts, flowOfStmt, flowOfExpr]

/-- The value of a compound assignment, once the place has been read. -/
lemma compound_yields {op : Source.BinaryOp} {value : Expr} {reached : Bool}
    (h : CompoundObeys R reached (some op) ty value.ty) (span : Span) :
    Yields (R.Strict types) Γ (eagerOp span op) fun _ op' =>
      R.Hold reached (.binary op' ty value.ty ty) := by
  simp only [CompoundObeys] at h
  cases hop : BinaryOp.ofSource? op with
  | none =>
    rw [hop] at h
    rw [eagerOp, hop]
    exact .inconsistent fun hstrict => hstrict.malformed h
  | some op' =>
    rw [hop] at h
    refine (eagerOp_yields hop span).mono ?_
    rintro C _ rfl
    exact h

section Assignments

variable {value : LoadedExpr} {node : Nat} {span : Span} {targetNode : Nat} {targetSpan : Span}
  {op : Option Source.BinaryOp}

lemma assignLocal_yields
    (hvalue : Yields (R.Strict types) Γ (desugarExpr types value) (ExprForm R types live value))
    (h : SourceStmtObeys R types Γ live
      ⟨node, span, .assign ⟨targetNode, targetSpan, ty, .localVar binding name⟩ op value⟩) :
    Yields (R.Strict types) Γ
      (desugarStmt types
        ⟨node, span, .assign ⟨targetNode, targetSpan, ty, .localVar binding name⟩ op value⟩)
      (StmtsForm R types live (flowOfSourceExpr value)) := by
  obtain ⟨hty, -, hcompound, hassign⟩ := h
  cases op with
  | none =>
    simp only [desugarStmt, pure_bind, nil_append]
    refine (bindLocal_yields hty).bind fun var _ _ => ?_
    refine hvalue.map fun C value' hvalue' hvar => .singleton ?_ ?_
    · rw [flowOfStmt, hvalue'.flow_eq]
    · rw [StmtObeys, hvalue'.flow_eq, hvalue'.ty_eq, hvar.ty_eq, hvar.fixed_eq,
        hty]
      exact ⟨hvalue'.obeys, hassign⟩
  | some op =>
    simp only [desugarStmt, pure_bind, nil_append, Place.read]
    refine (bindLocal_yields hty).bind fun var _ _ => hvalue.bind fun value' _ hvalue0 => ?_
    rw [← hvalue0.ty_eq] at hcompound
    refine (compound_yields hcompound span).map fun C op' hop hvalue' hvar => .singleton ?_ ?_
    · simp only [flowOfStmt, flowOfExpr, Flow.pass_andThen, hvalue'.flow_eq]
    · simp only [StmtObeys, ExprObeys, flowOfExpr, Flow.behind_pass,
        Flow.pass_andThen, Bool.and_true, hvalue'.flow_eq, hvar.ty_eq, hvar.fixed_eq, hty]
      exact ⟨⟨fun _ => trivial, hvalue'.obeys, hop⟩, hassign⟩

lemma assignGlobal_yields
    (hvalue : Yields (R.Strict types) Γ (desugarExpr types value) (ExprForm R types live value))
    (h : SourceStmtObeys R types Γ live
      ⟨node, span, .assign ⟨targetNode, targetSpan, ty, .globalVar name⟩ op value⟩) :
    Yields (R.Strict types) Γ
      (desugarStmt types
        ⟨node, span, .assign ⟨targetNode, targetSpan, ty, .globalVar name⟩ op value⟩)
      (StmtsForm R types live (flowOfSourceExpr value)) := by
  obtain ⟨-, hread, hcompound⟩ := h
  cases op with
  | none =>
    simp only [desugarStmt, pure_bind, nil_append]
    refine hvalue.map fun C value' hvalue' => .singleton ?_ ?_
    · rw [flowOfStmt, hvalue'.flow_eq]
    · rw [StmtObeys]
      exact hvalue'.obeys
  | some op =>
    simp only [desugarStmt, pure_bind, nil_append, Place.read]
    refine hvalue.bind fun value' _ hvalue0 => ?_
    rw [← hvalue0.ty_eq] at hcompound
    refine (compound_yields hcompound span).map fun C op' hop hvalue' => .singleton ?_ ?_
    · simp only [flowOfStmt, flowOfExpr, Flow.pass_andThen, hvalue'.flow_eq]
    · simp only [StmtObeys, ExprObeys, flowOfExpr, Flow.behind_pass,
        Bool.and_true, hvalue'.flow_eq]
      exact ⟨hread rfl, hvalue'.obeys, hop⟩

lemma assignField_yields (hR : R.Lawful) {base : LoadedExpr}
    (hbase : Yields (R.Strict types) Γ (desugarExpr types base) (ExprForm R types live base))
    (hvalue : Yields (R.Strict types) Γ (desugarExpr types value)
      (ExprForm R types (live && (flowOfSourceExpr base).behind) value))
    (h : SourceStmtObeys R types Γ live
      ⟨node, span, .assign ⟨targetNode, targetSpan, ty, .field base name⟩ op value⟩) :
    Yields (R.Strict types) Γ
      (desugarStmt types
        ⟨node, span, .assign ⟨targetNode, targetSpan, ty, .field base name⟩ op value⟩)
      (StmtsForm R types live ((flowOfSourceExpr base).andThen (flowOfSourceExpr value))) := by
  obtain ⟨-, hfield, -, hcompound⟩ := h
  cases op with
  | none =>
    simp only [desugarStmt, pure_bind, Option.isSome_none, Bool.false_eq_true, if_false,
      nil_append]
    refine hbase.bind fun base' _ hbase0 => ?_
    rw [← hbase0.ty_eq] at hfield
    refine (fieldIndex_yields targetSpan fun hstrict => hstrict.field _ _ hfield).bind fun index _ _ => ?_
    refine hvalue.map fun C value' hvalue' hdata hbase' => .singleton ?_ ?_
    · rw [flowOfStmt, hbase'.flow_eq, hvalue'.flow_eq]
    · rw [StmtObeys, hbase'.flow_eq]
      exact ⟨hbase'.obeys, hdata, hvalue'.obeys⟩
  | some op =>
    simp only [desugarStmt, holdBase, bind_assoc, pure_bind, Option.isSome_some, if_true,
      cons_append, nil_append, Place.read]
    refine hbase.bind fun base' _ hbase0 => ?_
    rw [← hbase0.ty_eq] at hfield
    refine (fieldIndex_yields targetSpan fun hstrict => hstrict.field _ _ hfield).bind fun index _ _ => ?_
    refine (freshLocal_yields _).bind fun var _ _ => hvalue.bind fun value' _ hvalue0 => ?_
    rw [← hvalue0.ty_eq] at hcompound
    refine (compound_yields hcompound span).map fun C op' hop hvalue' hvar hdata hbase' => ⟨?_, ?_⟩
    · simp only [flowOfStmts, flowOfStmt, flowOfExpr, Flow.pass_andThen, Flow.andThen_pass,
        hbase'.flow_eq, hvalue'.flow_eq]
    · simp only [StmtsObey, StmtObeys, ExprObeys, flowOfStmt, flowOfExpr, Flow.behind_pass,
        Bool.and_true, hbase'.flow_eq, hvalue'.flow_eq, hvar.1, hvar.2, Bool.or_true, and_true]
      exact ⟨⟨hbase'.obeys, hR.init_refl _ _, hR.bind_true⟩, fun _ => trivial, hdata,
        ⟨fun _ => trivial, hdata⟩, hvalue'.obeys, hop⟩

end Assignments

section Branches

variable {cond : LoadedExpr} {body : LoadedBlock} {node : Nat} {span : Span}

lemma branch_obeys (hR : R.Lawful) {cond' : Expr} {body' otherwise' : Block}
    (hcond : ExprForm R types live cond C cond')
    (hsite : R.Hold (live && (flowOfSourceExpr cond).behind) (.cond cond.ty))
    (hbody : BlockObeys R types C (live && (flowOfSourceExpr cond).behind) body')
    (hotherwise : BlockObeys R types C (live && (flowOfSourceExpr cond).behind) otherwise') :
    ExprObeys R types C live ⟨node, span, TypeTable.unit, .ifElse cond' body' otherwise'⟩ := by
  rw [ExprObeys, hcond.flow_eq, hcond.ty_eq]
  exact ⟨hcond.obeys, hsite, hbody, hR.value_unit _ _, hotherwise, hR.value_unit _ _⟩

lemma ifElse_yields
    (hcond : Yields (R.Strict types) Γ (desugarExpr types cond) (ExprForm R types live cond))
    (hsite : R.Hold (live && (flowOfSourceExpr cond).behind) (.cond cond.ty))
    (hbody : Yields (R.Strict types) Γ (desugarBlock types body)
      (BlockForm R types (live && (flowOfSourceExpr cond).behind) body))
    (hvalue : R.Hold (live && (flowOfSourceExpr cond).behind && (flowOfSourceBlock body).behind)
      (.value ty (sourceBlockType body)))
    {m : DesugarM Block} {f : Flow}
    (hm : Yields (R.Strict types) Γ m fun C block' => flowOfBlock block' = f ∧
      BlockObeys R types C (live && (flowOfSourceExpr cond).behind) block' ∧
      R.Hold (live && (flowOfSourceExpr cond).behind && f.behind) (.value ty (blockType block'))) :
    Yields (R.Strict types) Γ
      (do
        let cond' ← desugarExpr types cond
        let body' ← desugarBlock types body
        let otherwise' ← m
        return (⟨node, span, ty, .ifElse cond' body' otherwise'⟩ : Expr))
      fun C expr' => expr'.ty = ty ∧
        flowOfExpr expr' =
          (flowOfSourceExpr cond).andThen ((flowOfSourceBlock body).orElse f) ∧
        ExprObeys R types C live expr' := by
  refine hcond.bind fun cond' _ _ => hbody.bind fun body' _ _ => hm.map ?_
  rintro C otherwise' ⟨hflow, hotherwise, hother⟩ hbody hcond
  refine ⟨rfl, ?_, ?_⟩
  · rw [flowOfExpr, hcond.flow_eq, hbody.flow_eq, hflow]
  · rw [ExprObeys, hcond.flow_eq, hcond.ty_eq, hbody.flow_eq, hflow, blockType_eq hbody.tail_eq]
    exact ⟨hcond.obeys, hsite, hbody.obeys, hvalue, hotherwise, hother⟩

lemma flowOfBlock_empty (node : Nat) (span : Span) : flowOfBlock (.empty node span) = .pass := by
  simp [Block.empty, flowOfBlock, flowOfStmts]

lemma blockObeys_empty (node : Nat) (span : Span) :
    BlockObeys R types C live (.empty node span) := by
  simp [Block.empty, BlockObeys, StmtsObey]

end Branches

def FieldsFound (data : Source.DataType) (seen : List Nat) (names : List String) : Prop :=
  ∃ indices, names.mapM (fun name => (data.field? name).map Prod.fst) = some indices ∧
    indices.Nodup ∧ ∀ index ∈ indices, index ∉ seen

lemma FieldsFound.cons {data : Source.DataType} {seen : List Nat} {names : List String}
    (h : FieldsFound data seen (name :: names)) :
    ∃ index ty, data.field? name = some (index, ty) ∧ index ∉ seen ∧
      FieldsFound data (index :: seen) names := by
  obtain ⟨indices, hmap, hnodup, hseen⟩ := h
  rw [mapM_cons] at hmap
  obtain ⟨index, hindex, hmap⟩ := Option.bind_eq_some_iff.mp hmap
  obtain ⟨rest, hrest, hmap⟩ := Option.bind_eq_some_iff.mp hmap
  cases hmap
  obtain ⟨⟨_, ty⟩, hfield, rfl⟩ := Option.map_eq_some_iff.mp hindex
  obtain ⟨hnot, hnodup⟩ := nodup_cons.mp hnodup
  refine ⟨_, ty, hfield, hseen _ mem_cons_self, rest, hrest, hnodup, fun i hi hmem => ?_⟩
  rcases mem_cons.mp hmem with rfl | hmem
  · exact hnot hi
  · exact hseen i (mem_cons_of_mem _ hi) hmem

/-! ### Blocks, statements and expressions -/

mutual

/-- A block that keeps to the rules has a core form that does. -/
lemma desugarBlock_yields (hR : R.Lawful) : ∀ (block : LoadedBlock) {live : Bool},
    SourceBlockObeys R types Γ live block →
      Yields (R.Strict types) Γ (desugarBlock types block) (BlockForm R types live block)
  | ⟨node, span, stmts, none⟩, live, h => by
    refine (desugarStmts_yields hR stmts h).map fun C stmts' hstmts => ⟨rfl, ?_, ?_⟩
    · rw [flowOfBlock, flowOfSourceBlock, hstmts.flow_eq]
    · rw [BlockObeys]
      exact hstmts.obeys
  | ⟨node, span, stmts, some tail⟩, live, h => by
    simp only [desugarBlock, map_eq_pure_bind, bind_assoc, pure_bind]
    refine (desugarStmts_yields hR stmts h.1).bind fun stmts' _ _ => ?_
    refine (desugarExpr_yields hR tail h.2).map fun C tail' htail hstmts => ⟨?_, ?_, ?_⟩
    · rw [Option.map_some, Option.map_some, htail.ty_eq]
    · rw [flowOfBlock, flowOfSourceBlock, hstmts.flow_eq, htail.flow_eq]
    · rw [BlockObeys, hstmts.flow_eq]
      exact ⟨hstmts.obeys, htail.obeys⟩

lemma desugarStmts_yields (hR : R.Lawful) : ∀ (stmts : List LoadedStmt) {live : Bool},
    SourceStmtsObey R types Γ live stmts →
      Yields (R.Strict types) Γ (desugarStmts types stmts)
        (StmtsForm R types live (flowOfSourceStmts stmts))
  | [], live, h => .pure fun C => ⟨rfl, trivial⟩
  | stmt :: rest, live, h => by
    refine (desugarStmt_yields hR stmt h.1).bind fun stmts' _ _ => ?_
    refine (desugarStmts_yields hR rest h.2).map fun C rest' hrest hstmt => ⟨?_, ?_⟩
    · rw [flowOfStmts_append, flowOfSourceStmts, hstmt.flow_eq, hrest.flow_eq]
    · rw [stmtsObey_append, hstmt.flow_eq]
      exact ⟨hstmt.obeys, hrest.obeys⟩

lemma desugarStmt_yields (hR : R.Lawful) : ∀ (stmt : LoadedStmt) {live : Bool},
    SourceStmtObeys R types Γ live stmt →
    Yields (R.Strict types) Γ (desugarStmt types stmt)
      (StmtsForm R types live (flowOfSourceStmt stmt))
  | ⟨node, span, .letVar binding name mutable captured ty none⟩, live, h => by
    simp only [SourceStmtObeys] at h
    simp only [desugarStmt, pure_bind]
    refine (bindLocal_yields h).map fun C var hvar => .singleton ?_ ?_
    · rw [flowOfStmt, flowOfSourceStmt]
    · rw [StmtObeys]
      trivial
  | ⟨node, span, .letVar binding name mutable captured ty (some init)⟩, live, h => by
    obtain ⟨hinit, ⟨hty, hbind⟩, hsite⟩ := h
    simp only [desugarStmt, map_eq_pure_bind, bind_assoc, pure_bind]
    refine (desugarExpr_yields hR init hinit).bind fun init' _ _ => ?_
    refine (bindLocal_yields hty).map fun C var hvar hinit' => .singleton ?_ ?_
    · rw [flowOfStmt, flowOfSourceStmt, hinit'.flow_eq]
    · rw [StmtObeys, hinit'.flow_eq, hinit'.ty_eq, hvar.ty_eq, hty]
      exact ⟨hinit'.obeys, hsite, hvar.bind_always hR hbind⟩
  | ⟨node, span, .assign ⟨targetNode, targetSpan, ty, kind⟩ op value⟩, live, h => by
    cases kind with
    | localVar binding name =>
      rw [show flowOfSourceStmt _ = flowOfSourceExpr value from by rw [flowOfSourceStmt]; simp]
      have hvalue := h
      exact assignLocal_yields (desugarExpr_yields hR value hvalue.2.1) h
    | globalVar name =>
      rw [show flowOfSourceStmt _ = flowOfSourceExpr value from by rw [flowOfSourceStmt]; simp]
      have hvalue := h
      exact assignGlobal_yields (desugarExpr_yields hR value hvalue.1) h
    | field base name =>
      have hparts := h
      exact assignField_yields hR (desugarExpr_yields hR base hparts.1)
        (desugarExpr_yields hR value hparts.2.2.1) h
    | _ =>
      refine .inconsistent_bind fun hstrict => hstrict.malformed ?_
      simpa only [SourceStmtObeys] using h
  | ⟨node, span, .expr value⟩, live, h => by
    refine (desugarExpr_yields hR value h).map fun C value' hvalue => .singleton ?_ ?_
    · rw [flowOfStmt, flowOfSourceStmt, hvalue.flow_eq]
    · rw [StmtObeys]
      exact hvalue.obeys
  | ⟨node, span, .ret none⟩, live, h => .pure fun C => ⟨by
      rw [flowOfStmts_singleton, flowOfStmt, flowOfSourceStmt], by
      rw [stmtsObey_singleton, StmtObeys]
      simpa only [SourceStmtObeys] using h⟩
  | ⟨node, span, .ret (some value)⟩, live, h => by
    refine (desugarExpr_yields hR value h.1).map fun C value' hvalue => .singleton ?_ ?_
    · rw [flowOfStmt, flowOfSourceStmt, hvalue.flow_eq]
    · rw [StmtObeys, hvalue.flow_eq, hvalue.ty_eq]
      exact ⟨hvalue.obeys, h.2⟩
  | ⟨node, span, .ifElse cond body otherwise⟩, live, h => by
    obtain ⟨hcond, hsite, hbody, hotherwise⟩ := h
    refine (desugarExpr_yields hR cond hcond).bind fun cond' _ _ => ?_
    refine (desugarBlock_yields hR body hbody).bind fun body' _ _ => ?_
    refine (desugarElse_yields hR node span otherwise hotherwise).map ?_
    rintro C otherwise' ⟨hflow, hobeys⟩ hbody' hcond'
    refine .singleton ?_ ?_
    · rw [flowOfStmt, flowOfExpr, flowOfSourceStmt, hcond'.flow_eq,
        hbody'.flow_eq, hflow]
    · rw [StmtObeys]
      exact branch_obeys hR hcond' hsite hbody'.obeys hobeys
  | ⟨node, span, .whileLoop cond body⟩, live, h => by
    obtain ⟨hcond, hsite, hbody⟩ := h
    refine (desugarExpr_yields hR cond hcond).bind fun cond' _ _ => ?_
    refine (desugarBlock_yields hR body hbody).map fun C body' hbody' hcond' => .singleton ?_ ?_
    · rw [flowOfStmt, flowOfSourceStmt, hcond'.flow_eq, hbody'.flow_eq]
    · rw [StmtObeys, hcond'.flow_eq, hcond'.ty_eq]
      exact ⟨hcond'.obeys, hsite, hbody'.obeys⟩
  | ⟨node, span, .loop body⟩, live, h => by
    refine (desugarBlock_yields hR body h).map fun C body' hbody => .singleton ?_ ?_
    · rw [flowOfStmt, flowOfSourceStmt, hbody.flow_eq]
    · rw [StmtObeys]
      exact hbody.obeys
  | ⟨node, span, .forRange binding name first last inclusive body⟩, live, h => by
    obtain ⟨hfirst, hlast, hty, hint, hassign, hbody⟩ := h
    refine (desugarExpr_yields hR first hfirst).bind fun first' _ hfirst0 => ?_
    refine (desugarExpr_yields hR last hlast).bind fun last' _ _ => ?_
    rw [← hfirst0.ty_eq] at hty
    refine (bindLocal_yields hty).bind fun counter _ _ => ?_
    refine (freshLocal_yields _).bind fun bound _ _ => ?_
    refine (desugarBlock_yields hR body hbody).map ?_
    intro C body' hbody' hbound hcounter hlast' hfirst'
    refine .singleton ?_ ?_
    · rw [flowOfStmt, flowOfExpr, flowOfBlock_countedLoop, flowOfSourceStmt,
        hfirst'.flow_eq, hlast'.flow_eq, hbody'.flow_eq]
    · rw [StmtObeys, ExprObeys]
      refine ⟨countedLoop_obeys hR hfirst'.obeys ?_ ?_ (hcounter.ty_eq.trans hty)
        (hcounter.changes rfl) hbound.1 hbound.2 ?_ ?_ node span inclusive, hR.tail_unit _⟩
      · rw [hfirst'.flow_eq]
        exact hlast'.obeys
      · rw [hfirst'.flow_eq, hlast'.flow_eq]
        exact hbody'.obeys
      · rw [hfirst'.flow_eq, hlast'.flow_eq, hfirst'.ty_eq, hlast'.ty_eq]
        exact hint
      · rw [hcounter.fixed_eq]
        exact hassign
  | ⟨node, span, .breakLoop⟩, live, h | ⟨node, span, .continueLoop⟩, live, h => .pure fun C => ⟨by
      rw [flowOfStmts_singleton, flowOfStmt, flowOfSourceStmt], by
      trivial⟩

lemma desugarElse_yields (hR : R.Lawful) (node : Nat) (span : Span) :
    ∀ (otherwise : Option (Source.Else Nat Span Nat)) {live : Bool},
    SourceElseObeys R types Γ live otherwise →
      Yields (R.Strict types) Γ (desugarElse types node span otherwise) fun C block' =>
        flowOfBlock block' = flowOfSourceElse otherwise ∧ BlockObeys R types C live block'
  | none, live, h => .pure fun C => by
    exact ⟨flowOfBlock_empty node span, blockObeys_empty node span⟩
  | some (.block body), live, h => by
    refine (desugarBlock_yields hR body h).mono fun C body' hbody => ⟨?_, hbody.obeys⟩
    rw [flowOfSourceElse, hbody.flow_eq]
  | some (.chain ⟨node, span, kind⟩), live, h => by
    cases kind with
    | ifElse cond body otherwise =>
      obtain ⟨hcond, hsite, hbody, hotherwise⟩ := h
      refine (desugarExpr_yields hR cond hcond).bind fun cond' _ _ => ?_
      refine (desugarBlock_yields hR body hbody).bind fun body' _ _ => ?_
      refine (desugarElse_yields hR node span otherwise hotherwise).map ?_
      rintro C otherwise' ⟨hflow, hobeys⟩ hbody' hcond'
      refine ⟨?_, ?_⟩
      · rw [flowOfBlock_wrap, flowOfExpr, flowOfSourceElse, flowOfSourceStmt, hcond'.flow_eq,
          hbody'.flow_eq, hflow]
      · rw [blockObeys_wrap]
        exact branch_obeys hR hcond' hsite hbody'.obeys hobeys
    | _ =>
      refine .inconsistent fun hstrict => hstrict.malformed ?_
      simpa only [SourceElseObeys] using h

lemma desugarExpr_yields (hR : R.Lawful) : ∀ (expr : LoadedExpr) {live : Bool},
    SourceExprObeys R types Γ live expr →
    Yields (R.Strict types) Γ (desugarExpr types expr) (ExprForm R types live expr)
  | ⟨node, span, ty, .literal _⟩, live, h | ⟨node, span, ty, .globalVar _⟩, live, h =>
    .pure fun C => ⟨rfl, by
      rw [flowOfExpr, flowOfSourceExpr], by
      rw [ExprObeys]
      simpa only [SourceExprObeys] using h⟩
  | ⟨node, span, ty, .localVar binding name⟩, live, h => by
    simp only [SourceExprObeys] at h
    refine (bindLocal_yields h).map fun C var hvar => ⟨rfl, ?_, ?_⟩
    · rw [flowOfExpr, flowOfSourceExpr]
    · rw [ExprObeys, hvar.ty_eq, h]
      exact fun _ => rfl
  | ⟨node, span, ty, .binary op lhs rhs⟩, live, h => by
    obtain ⟨hlhs, hrhs, hop⟩ := h
    have hlhs := desugarExpr_yields hR lhs hlhs
    have hrhs := desugarExpr_yields hR rhs hrhs
    cases op with
    | and =>
      obtain ⟨hcond, hskipped, hvalue⟩ := hop
      refine hlhs.bind fun lhs' _ _ => hrhs.map fun C rhs' hrhs hlhs => ⟨rfl, ?_, ?_⟩
      · rw [flowOfExpr, flowOfSourceExpr, flowOfBlock_wrap, flowOfBlock_skipped, hlhs.flow_eq,
          hrhs.flow_eq, Flow.orElse_comm]
      · rw [ExprObeys, flowOfBlock_wrap, flowOfBlock_skipped, hlhs.flow_eq, hrhs.flow_eq,
          hlhs.ty_eq, Flow.behind_pass, Bool.and_true, blockType_wrap, hrhs.ty_eq]
        exact ⟨hlhs.obeys, hcond, blockObeys_wrap.mpr hrhs.obeys, hvalue,
          skipped_obeys hR node span false, hskipped⟩
    | or =>
      obtain ⟨hcond, hskipped, hvalue⟩ := hop
      refine hlhs.bind fun lhs' _ _ => hrhs.map fun C rhs' hrhs hlhs => ⟨rfl, ?_, ?_⟩
      · rw [flowOfExpr, flowOfSourceExpr, flowOfBlock_wrap, flowOfBlock_skipped, hlhs.flow_eq,
          hrhs.flow_eq]
      · rw [ExprObeys, flowOfBlock_wrap, flowOfBlock_skipped, hlhs.flow_eq, hrhs.flow_eq,
          hlhs.ty_eq, Flow.behind_pass, Bool.and_true, blockType_wrap, hrhs.ty_eq]
        exact ⟨hlhs.obeys, hcond, skipped_obeys hR node span true, hskipped,
          blockObeys_wrap.mpr hrhs.obeys, hvalue⟩
    | _ =>
      refine (eagerOp_yields rfl span).bind fun op' _ _ => ?_
      refine hlhs.bind fun lhs' _ _ => hrhs.map ?_
      rintro C rhs' hrhs hlhs rfl
      refine ⟨rfl, ?_, ?_⟩
      · rw [flowOfExpr, flowOfSourceExpr, hlhs.flow_eq, hrhs.flow_eq] <;> simp
      · rw [ExprObeys, hlhs.flow_eq, hrhs.flow_eq, hlhs.ty_eq, hrhs.ty_eq]
        exact ⟨hlhs.obeys, hrhs.obeys, hop⟩
  | ⟨node, span, ty, .unary _ value⟩, live, h | ⟨node, span, ty, .cast value⟩, live, h
  | ⟨node, span, ty, .ok value⟩, live, h | ⟨node, span, ty, .err value⟩, live, h
  | ⟨node, span, ty, .propagate value⟩, live, h => by
    refine (desugarExpr_yields hR value h.1).map fun C value' hvalue => ⟨rfl, ?_, ?_⟩
    · rw [flowOfExpr, flowOfSourceExpr, hvalue.flow_eq]
    · rw [ExprObeys, hvalue.flow_eq, hvalue.ty_eq]
      exact ⟨hvalue.obeys, h.2⟩
  | ⟨node, span, ty, .call callee args⟩, live, h => by
    refine (desugarExprs_yields hR args h).map fun C args' hargs => ⟨rfl, ?_, ?_⟩
    · rw [flowOfExpr, flowOfSourceExpr, hargs.1]
    · rw [ExprObeys]
      exact hargs.2
  | ⟨node, span, ty, .field base name⟩, live, h => by
    obtain ⟨hbase, hfield⟩ := h
    refine (desugarExpr_yields hR base hbase).bind fun base' _ hbase0 => ?_
    rw [← hbase0.ty_eq] at hfield
    refine (fieldIndex_yields span fun hstrict => hstrict.field _ _ hfield).map ?_
    refine fun C index hdata hbase => ⟨rfl, ?_, ?_⟩
    · rw [flowOfExpr, flowOfSourceExpr, hbase.flow_eq]
    · rw [ExprObeys]
      exact ⟨hbase.obeys, hdata⟩
  | ⟨node, span, ty, .data inits⟩, live, h => by
    obtain ⟨hdata, hinits⟩ := h
    simp only [desugarExpr]
    have hstruct (hstrict : R.Strict types) := hstrict.data _ _ hdata
    split
    · next hnone =>
      refine .inconsistent fun hstrict => ?_
      obtain ⟨data, hsome, -⟩ := hstruct hstrict
      rw [hnone] at hsome
      cases hsome
    · next data hsome =>
      have hfound (hstrict : R.Strict types) : inits.length = data.fields.length ∧
          FieldsFound data [] (inits.map Source.FieldInit.name) := by
        obtain ⟨data', hsome', hlength, indices, hindices, hnodup⟩ := hstruct hstrict
        rw [hsome] at hsome'
        cases hsome'
        rw [length_map] at hlength
        exact ⟨hlength, indices, hindices, hnodup, by simp⟩
      split
      · next hlength => exact .inconsistent fun hstrict => hlength (hfound hstrict).1
      · refine (desugarInits_yields hR span data inits [] (fun hs => (hfound hs).2) hinits).map ?_
        refine fun C inits' hinits => ⟨rfl, ?_, ?_⟩
        · rw [flowOfExpr, flowOfSourceExpr, hinits.1]
        · rw [ExprObeys]
          exact ⟨⟨data, hsome⟩, hinits.2⟩
  | ⟨node, span, ty, .ifElse cond body none⟩, live, h => by
    obtain ⟨hcond, hsite, hbody, hvalue, hunit⟩ := h
    refine (ifElse_yields (f := .pass) (desugarExpr_yields hR cond hcond) hsite
      (desugarBlock_yields hR body hbody) hvalue (.pure fun C => ?_)).mono ?_
    · refine ⟨flowOfBlock_empty node span, blockObeys_empty node span, ?_⟩
      rwa [Flow.behind_pass, Bool.and_true]
    · refine fun C expr' h => ⟨h.1, ?_, h.2.2⟩
      rw [flowOfSourceExpr, h.2.1]
  | ⟨node, span, ty, .ifElse cond body (some ⟨otherNode, otherSpan, otherTy, kind⟩)⟩, live, h => by
    obtain ⟨hcond, hsite, hbody, hvalue, hother, hotherValue⟩ := h
    have hotherObeys := hother
    have hcond := desugarExpr_yields hR cond hcond
    have hbody := desugarBlock_yields hR body hbody
    have hother := desugarExpr_yields hR ⟨otherNode, otherSpan, otherTy, kind⟩ hother
    have hwrap : Yields (R.Strict types) Γ
        (Block.wrap <$> desugarExpr types ⟨otherNode, otherSpan, otherTy, kind⟩) fun C block' =>
          flowOfBlock block' = flowOfSourceExpr ⟨otherNode, otherSpan, otherTy, kind⟩ ∧
          BlockObeys R types C (live && (flowOfSourceExpr cond).behind) block' ∧
          R.Hold (live && (flowOfSourceExpr cond).behind &&
            (flowOfSourceExpr ⟨otherNode, otherSpan, otherTy, kind⟩).behind)
            (.value ty (blockType block')) := by
      refine hother.map fun C other' hother => ⟨?_, blockObeys_wrap.mpr hother.obeys, ?_⟩
      · rw [flowOfBlock_wrap, hother.flow_eq]
      · rw [blockType_wrap, hother.ty_eq]
        exact hotherValue
    cases kind with
    | block other =>
      refine (ifElse_yields (f := flowOfSourceBlock other) hcond hsite hbody hvalue
        ((desugarBlock_yields hR other hotherObeys.1).mono fun C other' hother => ?_)).mono ?_
      · refine ⟨hother.flow_eq, hother.obeys, ?_⟩
        rw [blockType_eq hother.tail_eq]
        exact hR.value_tail _ _ _ _ hotherValue hotherObeys.2
      · refine fun C expr' h => ⟨h.1, ?_, h.2.2⟩
        rw [flowOfSourceExpr, flowOfSourceExpr, h.2.1]
    | _ =>
      refine (ifElse_yields hcond hsite hbody hvalue hwrap).mono fun C expr' h => ⟨h.1, ?_, h.2.2⟩
      rw [flowOfSourceExpr, h.2.1]
  | ⟨node, span, ty, .matchOn scrutinee arms⟩, live, h => by
    refine (desugarExpr_yields hR scrutinee h.1).bind fun scrutinee' _ hscrutinee0 => ?_
    rw [hscrutinee0.ty_eq]
    refine (desugarArms_yields hR ty scrutinee.ty arms h.2).map ?_
    refine fun C arms' harms hscrutinee => ⟨rfl, ?_, ?_⟩
    · rw [flowOfExpr, flowOfSourceExpr, hscrutinee.flow_eq, harms.1]
    · rw [ExprObeys, hscrutinee.flow_eq, hscrutinee.ty_eq]
      exact ⟨hscrutinee.obeys, harms.2⟩
  | ⟨node, span, ty, .block body⟩, live, h => by
    refine (desugarBlock_yields hR body h.1).map fun C body' hbody => ⟨rfl, ?_, ?_⟩
    · rw [flowOfExpr, flowOfSourceExpr, hbody.flow_eq]
    · rw [ExprObeys, hbody.flow_eq, blockType_eq hbody.tail_eq]
      exact ⟨hbody.obeys, h.2⟩

lemma desugarExprs_yields (hR : R.Lawful) : ∀ (exprs : List LoadedExpr) {live : Bool},
    SourceArgsObey R types Γ live exprs →
      Yields (R.Strict types) Γ (desugarExprs types exprs) fun C exprs' =>
        flowOfArgs exprs' = flowOfSourceArgs exprs ∧ ArgsObey R types C live exprs'
  | [], live, h => .pure fun C => by
    simp [flowOfArgs, flowOfSourceArgs, ArgsObey]
  | expr :: rest, live, h => by
    refine (desugarExpr_yields hR expr h.1).bind fun expr' _ _ => ?_
    refine (desugarExprs_yields hR rest h.2).map ?_
    rintro C rest' ⟨hflow, hrest⟩ hexpr
    rw [flowOfArgs, flowOfSourceArgs, ArgsObey, hexpr.flow_eq, hflow]
    exact ⟨rfl, hexpr.obeys, hrest⟩

lemma desugarInits_yields (hR : R.Lawful) (span : Span) (data : Source.DataType) :
    ∀ (inits : List (Source.FieldInit Nat Span Nat)) {live : Bool} (seen : List Nat),
    (R.Strict types → FieldsFound data seen (inits.map Source.FieldInit.name)) →
    SourceInitsObey R types Γ live inits →
      Yields (R.Strict types) Γ (desugarInits types data span seen inits) fun C inits' =>
        flowOfInits inits' = flowOfSourceInits inits ∧ InitsObey R types C live inits'
  | [], live, seen, hfound, h => .pure fun C => by
    simp [flowOfInits, flowOfSourceInits, InitsObey]
  | ⟨name, value⟩ :: rest, live, seen, hfound, h => by
    simp only [desugarInits]
    split
    · next hnone =>
      refine .inconsistent fun hstrict => ?_
      obtain ⟨index, ty, hfield, -⟩ := (hfound hstrict).cons
      rw [hnone] at hfield
      cases hfield
    · next index ty hfield =>
      have hnext (hstrict : R.Strict types) : index ∉ seen ∧
          FieldsFound data (index :: seen) (rest.map Source.FieldInit.name) := by
        obtain ⟨_, _, hfield', hnot, hrest⟩ := (hfound hstrict).cons
        rw [hfield] at hfield'
        cases hfield'
        exact ⟨hnot, hrest⟩
      split
      · next hmem => exact .inconsistent_bind fun hstrict => (hnext hstrict).1 hmem
      · refine (desugarExpr_yields hR value h.1).bind fun value' _ _ => ?_
        refine Yields.map (desugarInits_yields hR span data rest (index :: seen)
          (fun hs => (hnext hs).2) h.2) ?_
        rintro C rest' ⟨hflow, hrest⟩ hvalue
        rw [flowOfInits, flowOfSourceInits, InitsObey, hvalue.flow_eq, hflow]
        exact ⟨rfl, hvalue.obeys, hrest⟩

lemma desugarArms_yields (hR : R.Lawful) (ty scrutinee : Nat) :
    ∀ (arms : List (Source.Arm Nat Span Nat)) {live : Bool},
    SourceArmsObey R types Γ live ty scrutinee arms →
      Yields (R.Strict types) Γ (desugarArms types scrutinee arms) fun C arms' =>
        flowOfArms arms' = flowOfSourceArms arms ∧ ArmsObey R types C live ty scrutinee arms'
  | [], live, h => .pure fun C => by
    simp [flowOfArms, flowOfSourceArms, ArmsObey]
  | ⟨pattern, body, span⟩ :: rest, live, h => by
    obtain ⟨hpattern, hsite, hbody, hvalue, hrest⟩ := h
    refine (desugarPattern_yields hR span hpattern hsite.1).bind fun pattern' _ _ => ?_
    refine (desugarExpr_yields hR body hbody).bind fun body' _ _ => ?_
    refine (desugarArms_yields hR ty scrutinee rest hrest).map ?_
    rintro C rest' ⟨hflow, hrest⟩ hbody ⟨hpattern, hshape⟩
    refine ⟨?_, ?_⟩
    · rw [flowOfArms, flowOfSourceArms, hbody.flow_eq, hflow, isIrrefutable_eq, hshape]
      simp only [decide_eq_true_eq]
    · rw [ArmsObey, hbody.flow_eq, hbody.ty_eq, isIrrefutable_eq, hshape]
      refine ⟨hpattern, hsite, hbody.obeys, hvalue, ?_⟩
      rwa [← decide_not]

end

/-! ### Bodies -/

lemma params_yield (hR : R.Lawful) {params : List (Source.Param Nat Span)} (must : Prop)
    (h : ∀ param ∈ params, Introduces R Γ param.ty param.binding param.mutable) :
    Yields must Γ
      (params.mapM fun param =>
        bindLocal param.binding { name := param.name, ty := param.ty, mutable := param.mutable })
      fun C vars => ∀ var ∈ vars, R.always (.bind (C.changes var || C.fixed var)) := by
  induction params with
  | nil => exact .pure fun C => by simp
  | cons param params ih =>
    rw [mapM_cons]
    obtain ⟨hty, hbind⟩ := h param mem_cons_self
    refine (bindLocal_yields hty).bind fun var _ _ => ?_
    refine (ih fun other hother => h other (mem_cons_of_mem _ hother)).map ?_
    intro C vars hvars hvar v hv
    rcases mem_cons.mp hv with rfl | hv
    · refine hvar.bind_always hR ?_
      rwa [Bool.or_false]
    · exact hvars v hv

/-- A function that keeps to some rules has a core form that keeps to them, unless desugaring fails;
under strict rules it does not. -/
lemma desugar_obeys (hR : R.Lawful) {item : Source.LoadedItem}
    {params : List (Source.Param Nat Span)} {ret : Nat} {block : LoadedBlock}
    (hkind : item.kind = .function params ret (some block)) (h : FunctionObeys R types Γ params block) :
    (R.Strict types → ∃ body, desugar types item = .ok (some body)) ∧
      ∀ body, desugar types item = .ok (some body) →
        body.ret = ret ∧ ∃ C, BodyObeys R types C body := by
  have hyields : Yields (R.Strict types) Γ (desugarFunction types params block) fun C result =>
      (∀ var ∈ result.1, R.always (.bind (C.changes var || C.fixed var))) ∧
        BlockForm R types true block C result.2 :=
    (params_yield hR _ h.params).bind fun vars _ _ =>
      (desugarBlock_yields hR block h.block).map fun C block' hblock hvars => ⟨hvars, hblock⟩
  have hstart : Known Γ {} := ⟨⟨by simp, by simp⟩, by simp⟩
  obtain ⟨hsome, hright⟩ := hyields {} hstart
  rw [desugar, hkind]
  dsimp only
  constructor
  · intro hstrict
    obtain ⟨⟨params', block'⟩, L, hrun⟩ := hsome hstrict
    rw [StateT.run, hrun]
    exact ⟨_, rfl⟩
  · intro body hbody
    rcases hrun : (desugarFunction types params block).run {} with e | ⟨⟨params', block'⟩, L⟩
    · rw [hrun] at hbody
      cases hbody
    · rw [hrun] at hbody
      cases hbody
      obtain ⟨hL, -, hQ⟩ := hright _ L hrun
      obtain ⟨hvars, hblock⟩ := hQ L hL (.refl L)
      refine ⟨rfl, declsOf Γ L, rfl, hvars, hblock.obeys, ?_⟩
      rw [hblock.flow_eq, hblock.tail_eq]
      exact h.tail

end Forms

end SsaLowering.Proofs
