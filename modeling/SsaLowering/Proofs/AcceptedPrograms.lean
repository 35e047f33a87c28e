import SsaLowering.Proofs.ModuleRuns
import SsaLowering.Proofs.SelectedFunctions
import SsaLowering.Proofs.VerifiableSsa

/-!
# Programs that the verifier accepts

If the type annotations of a function of a loaded program are consistent, the code that it is lowered
to keeps the type rules wherever control gets to, and so does all code that SSA construction leaves of
it. So the verifier accepts it, and a program with consistent annotations is never found to be
malformed.
-/

namespace SsaLowering.Proofs

open Ir Lowering Compilation Ssa
open SsaLowering.Core (Body desugar)
open Source (TypeTable Tree Program LoadedItem LoadedExpr)

/-! ### Construction -/

section Construction

variable {f p : Function} {entry : Block} {live : Block → Bool} {layouts : LayoutTable} {v : Value}

/-- Where control gets to, the code of a function keeps the type rules, and its slots hold values. -/
structure KeepsTypes (function : Function) (layouts : LayoutTable) (entry : Block) : Prop where
  slots : ∀ v held pinned, function.inst? v = some (.alloca held pinned) → held ≠ .void
  proper : ∀ b, Reached function entry b → ∀ v ∈ function.insts b, ∀ inst,
    function.inst? v = some inst → Proper function layouts inst

namespace Trimmed

lemma inst?_cases (h : Trimmed f p entry live) (v : Value) :
    p.inst? v = f.inst? v ∨ ∃ marks, p.inst? v = (f.inst? v).map (dropArgs marks) := by
  by_cases hphi : ∃ b, Reached f entry b ∧ v ∈ f.phis b
  · obtain ⟨b, hb, hv⟩ := hphi
    exact .inr ⟨_, h.phi_eq b hb v hv⟩
  · exact .inl (h.inst_eq v fun b hb hv => hphi ⟨b, hb, hv⟩)

lemma ty_eq (h : Trimmed f p entry live) (v : Value) : p.ty v = f.ty v := by
  rcases h.inst?_cases v with heq | ⟨marks, heq⟩
  · exact ty_congr heq
  · rw [Function.ty, Function.ty, heq, Option.map_map]
    congr 2
    funext inst
    cases inst <;> rfl

lemma slot_of_slot (h : Trimmed f p entry live) {v : Value} {held : Ty} {pinned : Bool}
    (hv : p.inst? v = some (.alloca held pinned)) : f.inst? v = some (.alloca held pinned) := by
  rcases h.inst?_cases v with heq | ⟨marks, heq⟩
  · rw [← heq, hv]
  · rw [heq, Option.map_eq_some_iff] at hv
    obtain ⟨inst, hinst, hdrop⟩ := hv
    rw [hinst]
    cases inst <;> first | exact congrArg some hdrop | cases hdrop

end Trimmed

/-- A phi with fewer arguments keeps the rules. -/
lemma Proper.dropArgs {inst : Inst} (h : Proper p layouts inst) (marks : List Bool) :
    Proper p layouts (dropArgs marks inst) := by
  refine ⟨fun w hw => h.operands w (operands_dropArgs_subset marks inst hw), ?_, ?_⟩
  · have htypes := h.types
    cases inst with
    | phi ty args => exact fun w hw => htypes w (operands_dropArgs_subset marks (.phi ty args) hw)
    | _ => exact htypes
  · have hslots := h.slots
    cases inst <;> exact hslots

lemma KeepsTypes.trimmed (h : KeepsTypes f layouts entry) (hf : WellFormed f entry)
    (htrim : Trimmed f p entry live) : KeepsTypes p layouts entry := by
  refine ⟨fun v held pinned hv => h.slots v held pinned (htrim.slot_of_slot hv), ?_⟩
  intro b hb v hv inst hinst
  rw [htrim.reached_iff hf] at hb
  rw [htrim.insts_eq b hb] at hv
  rw [htrim.inst?_of_mem hf hb hv] at hinst
  obtain ⟨old, hold, rfl⟩ := Option.map_eq_some_iff.mp hinst
  have hproper : Proper p layouts old := (h.proper b hb v hv old hold).congr htrim.ret_eq
    (fun w _ => htrim.ty_eq w) fun w _ held pinned => htrim.slot_of_slot
  exact hproper.dropArgs _

namespace KeepsTypes

/-- Without blocks that are not reached, all code keeps the rules. -/
lemma wellTyped (h : KeepsTypes p layouts entry) (hp : Pruned p entry) : WellTyped p layouts := by
  intro b hb v hv inst hinst
  have hproper := h.proper b (hp.layout_reached b hb) v hv inst hinst
  exact ⟨hproper.operands, hproper.types⟩

lemma typedSlots (h : KeepsTypes p layouts entry) (hp : Pruned p entry) {slots : List Slot}
    (hslots : ∀ s ∈ slots, p.inst? s.address = some (.alloca s.ty false)) : TypedSlots p slots := by
  intro s hs v hv inst hinst
  obtain ⟨b, hb, hv⟩ := (hp.mem_placedValues_iff v).mp hv
  have hrule := (h.proper b hb v hv inst hinst).slots
  have hslot := hslots s hs
  cases inst with
  | load ty address =>
    by_cases heq : address = s.address
    · simpa [accessFits, heq] using hrule s.ty false (heq ▸ hslot)
    · simp [accessFits, heq]
  | store address stored =>
    by_cases heq : address = s.address
    · simpa [accessFits, heq] using hrule s.ty false (heq ▸ hslot)
    · simp [accessFits, heq]
  | _ => rfl

end KeepsTypes

/-- SSA construction brings finished code that keeps the type rules into a form that the verifier
accepts. -/
lemma Finished.construct_verified {A : Avail} {b : Builder} (h : Finished A b)
    (htypes : KeepsTypes b.function layouts Builder.firstBlock) :
    ∃ stats g, construct b.function = .ok (stats, g) ∧ g.verify layouts = .ok (.ok ()) := by
  have hf := h.wellFormed
  obtain ⟨stats, g, count, p, live, hconstruct, -, htrim, -, hg⟩ := construct_cases hf
  obtain ⟨stats', g', hconstruct', hpruned, hhomed⟩ := h.construct_sound
  obtain ⟨rfl, rfl⟩ := Prod.mk.inj (Except.ok.inj (hconstruct.symm.trans hconstruct'))
  have hp := htypes.trimmed hf htrim
  have htyped : WellTyped g layouts := by
    rcases hg with ⟨-, rfl⟩ | ⟨doms, homes, placed, walk, held, hstage, hr, rfl⟩
    · exact hp.wellTyped hpruned
    · have hslots : TypedSlots p (promotable p) :=
        hp.typedSlots hstage.pruned fun s hs => ((hstage.slots_iff s).mp hs).alloca
      exact hslots.promoted (hp.wellTyped hstage.pruned) hstage hr (hr.promoted hstage)
  exact ⟨stats, g, hconstruct, (hpruned.sound hhomed).verify_eq_ok hpruned.listed
    (fun b hb => hpruned.blocks_exist b (hpruned.layout_reached b hb)) htyped⟩

end Construction

/-! ### Bodies -/

/-- In finished code that keeps the type rules, control gets to the blocks that are marked so. -/
lemma Typed.keepsTypes {ctx : Context} {b : Builder} (h : Typed ctx b) {A : Avail}
    (hfinished : Finished A b) : KeepsTypes b.function ctx.env.layouts Builder.firstBlock := by
  have hlive (t : Ir.Block) (ht : Reached b.function Builder.firstBlock t) : b.isLive t = true := by
    refine ht.induction (motive := fun t => b.isLive t = true) hfinished.live_first
      fun p t _ hedge hp => ?_
    rw [Edge, hfinished.successors_eq] at hedge
    exact hfinished.live_edges p t hp hedge
  refine ⟨h.slots, fun t ht v hv inst hinst => ?_⟩
  rcases hfinished.inst_cases hv with ⟨-, -, inst', hinst', hhead, -⟩ |
    ⟨_, _, inst', hcode, hinst', -⟩
  all_goals obtain rfl := Option.some.inj (hinst.symm.trans hinst')
  · -- parameters and slots have no operands
    have hoperands := (head_inst_plain hhead).2.2.1
    refine ⟨fun w hw => ?_, ?_, ?_⟩
    · rw [hoperands] at hw
      cases hw
    all_goals cases inst <;> trivial
  · exact h.proper t (hlive t ht) v (hcode ▸ List.mem_append_right _ List.mem_cons_self) inst hinst

/-- The verifier accepts what a body with consistent annotations is lowered to. -/
lemma lowerBody_verified {env : Environment} {body : Body} {C : Decls} (henv : Faithful env)
    (h : BodyObeys (typing env body.ret) env.types C body) {f : Function}
    (hf : (lowerBody env body).function = .ok f) :
    ∃ stats g, construct f = .ok (stats, g) ∧ g.verify env.layouts = .ok (.ok ()) := by
  let K : Setting := ⟨⟨env, body⟩, C, false, False, True, h.decls_eq, fun _ => henv⟩
  have hrules : K.rules = typing env body.ret := by
    simp [K, Setting.rules, typing]
  have hends := lowerBody_ends (K := K) fun _ => hrules ▸ h
  rw [show (lowerBody K.ctx.env K.ctx.body).function = .ok f from hf] at hends
  obtain ⟨A, b, hfinished, -, rfl, htyped⟩ := hends
  exact hfinished.construct_verified ((htyped trivial).keepsTypes hfinished)

/-! ### Items and modules -/

section Modules

variable {env : Environment} {options : Options} {name : String} {problem : Malformation}

/-- What is accepted is not found to be malformed. -/
lemma lowerFresh_ne_malformed {body : Body} (stamp : Stamp)
    (h : ∀ f, (lowerBody env body).function = .ok f → ∃ stats g, construct f = .ok (stats, g) ∧
      g.verify env.layouts = .ok (.ok ())) :
    (lowerFresh env options body stamp).1 ≠ .error (.malformed name problem) := by
  have hfinished := lowerBody_finished env body
  intro hmalformed
  unfold lowerFresh at hmalformed
  dsimp only at hmalformed
  split at hmalformed
  · next error herror =>
    obtain rfl := Except.error.inj hmalformed
    rw [herror] at hfinished
    exact hfinished
  · next f hf =>
    obtain ⟨stats, g, hconstruct, hverify⟩ := h f hf
    rw [hconstruct] at hmalformed
    dsimp only at hmalformed
    have hcheck : checkFunction env options g = .ok () := by
      rw [checkFunction, hverify]
      split <;> rfl
    rw [hcheck] at hmalformed
    cases hmalformed

lemma lowerItem_ne_malformed {cache : Option Cache} {item : LoadedItem}
    (h : ∀ body, desugar env.types item = .ok (some body) → ∀ f,
      (lowerBody env body).function = .ok f → ∃ stats g, construct f = .ok (stats, g) ∧
        g.verify env.layouts = .ok (.ok ())) :
    (lowerItem env options cache item).1.result ≠ .error (.malformed name problem) := by
  cases htask : taskOf env item with
  | settled result =>
    rw [lowerItem_settled htask]
    rw [taskOf] at htask
    split at htask <;> cases htask <;> simp
  | pending body stamp =>
    have hbody : desugar env.types item = .ok (some body) := by
      rw [taskOf] at htask
      split at htask
      · cases htask
      · cases htask
      · next hbody =>
        cases htask
        exact hbody
    have htreated : Treated env options body stamp cache (lowerItem env options cache item) :=
      lowerItem_treated htask
    intro hmalformed
    cases htreated with
    | found _ _ _ _ hresult _ => cases hresult.symm.trans hmalformed
    | failed error hfresh hresult _ =>
      obtain rfl := Except.error.inj (hresult.symm.trans hmalformed)
      exact lowerFresh_ne_malformed stamp (h body hbody) hfresh
    | made _ _ hresult _ => cases hresult.symm.trans hmalformed

lemma lowerItems_ne_malformed {cache : Option Cache} {items : List LoadedItem}
    (h : ∀ item ∈ items, ∀ cache,
      (lowerItem env options cache item).1.result ≠ .error (.malformed name problem)) :
    ∀ outcome ∈ (lowerItems env options cache items).1,
      outcome.result ≠ .error (.malformed name problem) := by
  induction items generalizing cache with
  | nil => exact fun _ houtcome => by cases houtcome
  | cons item rest ih =>
    intro outcome houtcome
    rcases List.mem_cons.mp houtcome with rfl | hmem
    · exact h item List.mem_cons_self cache
    · exact ih (fun other hother => h other (List.mem_cons_of_mem _ hother)) outcome hmem

lemma gather_ne_malformed {outcomes : List (LoadedItem × ItemOutcome)} {module : Ir.Module}
    {reports : List Report}
    (h : ∀ pair ∈ outcomes, pair.2.result ≠ .error (.malformed name problem)) :
    (gather env options module reports outcomes).1 ≠ .error (.malformed name problem) := by
  induction outcomes generalizing module reports with
  | nil => simp [gather]
  | cons pair rest ih =>
    obtain ⟨item, outcome⟩ := pair
    rw [gather]
    cases hresult : outcome.result with
    | error error =>
      intro hmalformed
      obtain rfl := Except.error.inj hmalformed
      exact h _ List.mem_cons_self hresult
    | ok entry =>
      dsimp only
      split
      · simp
      · split
        · simp
        · exact ih fun other hother => h other (List.mem_cons_of_mem _ hother)

end Modules

/-! ### Programs -/

/-- The annotations of an item of a program are consistent, if it is a function with a body. Every
binding has one type. -/
def ConsistentItem (digest : Digest) (program : Program) (item : LoadedItem) : Prop :=
  ∀ params ret block, item.kind = .function params ret (some block) → ∃ Γ : Bindings,
    FunctionObeys (typing (.ofProgram digest program) ret) program.types Γ params block

/-- An item with a core form is a function with a body. -/
lemma kind_of_desugar {types : TypeTable} {item : LoadedItem} {body : Body}
    (h : desugar types item = .ok (some body)) :
    ∃ params ret block, item.kind = .function params ret (some block) := by
  unfold desugar at h
  split at h
  · next params ret block hkind => exact ⟨params, ret, block, hkind⟩
  · cases h

/-- If the annotations of a function of a loaded program are consistent, and it can be lowered, then
SSA construction succeeds and the verifier accepts its result. So a program all of whose functions
have consistent annotations is never rejected as malformed, with verification or without it, whatever
is in the cache. -/
theorem consistent_functions_are_accepted (digest : Digest) {tree : Tree} {program : Program}
    (hload : tree.load = .ok program) :
    (∀ item, ConsistentItem digest program item →
      ∀ body, desugar program.types item = .ok (some body) →
      ∀ f, (lowerBody (.ofProgram digest program) body).function = .ok f →
      ∃ stats g, construct f = .ok (stats, g) ∧
        g.verify (Environment.ofProgram digest program).layouts = .ok (.ok ())) ∧
    ((∀ item ∈ program.items, ConsistentItem digest program item) → ∀ options cache name problem,
      (lowerModule digest program options cache).result ≠ .error (.malformed name problem)) := by
  have henv := ofProgram_faithful digest (load_regular hload)
  have hitem (item : LoadedItem) (h : ConsistentItem digest program item) (body : Body)
      (hbody : desugar program.types item = .ok (some body)) (f : Function)
      (hf : (lowerBody (.ofProgram digest program) body).function = .ok f) :
      ∃ stats g, construct f = .ok (stats, g) ∧
        g.verify (Environment.ofProgram digest program).layouts = .ok (.ok ()) := by
    obtain ⟨params, ret, block, hkind⟩ := kind_of_desugar hbody
    obtain ⟨Γ, hobeys⟩ := h params ret block hkind
    obtain ⟨rfl, C, hobeys⟩ := (desugar_obeys (typing_lawful henv ret) hkind hobeys).2 body hbody
    exact lowerBody_verified henv hobeys hf
  refine ⟨hitem, fun h options cache name problem => ?_⟩
  refine gather_ne_malformed fun pair hpair => ?_
  exact lowerItems_ne_malformed (fun item hmem _ => lowerItem_ne_malformed (hitem item (h item hmem)))
    pair.2 (List.of_mem_zip hpair).2

/-- A number is counted up to ten, and returned on the way if the parameter holds. -/
def countUntil {τ σ ν : Type} (int bool : τ) (span : σ) (node : Nat → ν) : Source.Expr τ σ ν :=
  let number (place : Nat) : Source.Expr τ σ ν := ⟨node place, span, int, .localVar 1 "n"⟩
  let literal (place : Nat) (value : Int64) : Source.Expr τ σ ν :=
    ⟨node place, span, int, .literal (.int value)⟩
  let stop : Source.Stmt τ σ ν := ⟨node 12, span, .ifElse ⟨node 8, span, bool, .localVar 0 "c"⟩
    ⟨node 11, span, [⟨node 10, span, .ret (some (number 9))⟩], none⟩ none⟩
  ⟨node 17, span, int, .block ⟨node 16, span,
    [⟨node 1, span, .letVar 1 "n" true false int (some (literal 0 0))⟩,
      ⟨node 14, span, .whileLoop ⟨node 4, span, bool, .binary .lt (number 2) (literal 3 10)⟩
        ⟨node 13, span, [⟨node 7, span, .assign (number 5) (some .add) (literal 6 1)⟩, stop], none⟩⟩],
    some (number 15)⟩⟩

/-- The program that counts so. -/
def countProgram : Program :=
  choose 18 (countUntil TypeTable.int TypeTable.bool .zero id)

lemma countProgram_loads : (chooseTree (countUntil .int .bool none fun _ => ())).load =
    .ok countProgram := rfl

lemma countUntil_obeys {env : Environment} {types : TypeTable} :
    SourceExprObeys (typing env TypeTable.int) types
      ⟨fun binding => if binding = 0 then TypeTable.bool else TypeTable.int, fun _ => false⟩ true
      (countUntil TypeTable.int TypeTable.bool .zero id) := by
  simp [countUntil, SourceExprObeys, SourceBlockObeys, SourceStmtsObey, SourceStmtObeys,
    SourceElseObeys, CompoundObeys, Core.BinaryOp.ofSource?, sourceBlockType, Introduces, Rules.Hold,
    Consistent, literalType, operatorType, compares]

lemma countProgram_consistent :
    ∀ item ∈ countProgram.items, ConsistentItem .fnv countProgram item := by
  intro item hitem params ret block hkind
  obtain rfl := List.mem_singleton.mp hitem
  cases hkind
  refine ⟨_, ?_, ⟨?_, countUntil_obeys⟩, ?_⟩
  · simp [Introduces]
  · trivial
  · simp [Rules.Hold, Consistent, countUntil]

/-- The function of the program. -/
def countItem : LoadedItem :=
  chooseItem 18 (countUntil TypeTable.int TypeTable.bool .zero id)

lemma countItem_lowers : ∃ body f, desugar countProgram.types countItem = .ok (some body) ∧
    (lowerBody (.ofProgram .fnv countProgram) body).function = .ok f := by
  obtain ⟨body, hbody⟩ : ∃ body, desugar countProgram.types countItem = .ok (some body) := ⟨_, rfl⟩
  have hlowers : (lowerBody (.ofProgram .fnv countProgram) body).function.toBool = true := by
    cases hbody
    decide +kernel
  cases hf : (lowerBody (.ofProgram .fnv countProgram) body).function with
  | ok f => exact ⟨body, f, hbody, hf⟩
  | error e =>
    rw [hf] at hlowers
    cases hlowers

theorem countProgram_is_accepted :
    (∃ tree : Tree, tree.load = .ok countProgram) ∧
    (∀ item ∈ countProgram.items, ConsistentItem .fnv countProgram item) ∧
    (∃ body f, desugar countProgram.types countItem = .ok (some body) ∧
      (lowerBody (.ofProgram .fnv countProgram) body).function = .ok f ∧
      ∃ stats g, construct f = .ok (stats, g) ∧
        g.verify (Environment.ofProgram .fnv countProgram).layouts = .ok (.ok ())) ∧
    ∀ options cache name problem,
      (lowerModule .fnv countProgram options cache).result ≠ .error (.malformed name problem) := by
  obtain ⟨hbodies, hmodule⟩ := consistent_functions_are_accepted .fnv countProgram_loads
  refine ⟨⟨_, countProgram_loads⟩, countProgram_consistent, ?_, hmodule countProgram_consistent⟩
  obtain ⟨body, f, hbody, hf⟩ := countItem_lowers
  have hitem := countProgram_consistent countItem (List.mem_singleton_self _)
  exact ⟨body, f, hbody, hf, hbodies countItem hitem body hbody f hf⟩

end SsaLowering.Proofs
