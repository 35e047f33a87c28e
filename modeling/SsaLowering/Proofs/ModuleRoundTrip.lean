import SsaLowering.Proofs.BinaryForm
import SsaLowering.Proofs.ConstructedReferences
import SsaLowering.Proofs.Environments
import SsaLowering.Proofs.ModuleRuns

/-!
# Modules as bytes and back

A module that fits, whose functions are self-contained and whose layouts are interned, is what its
bytes are read as. Lowered modules are of this kind: their functions come from construction, are
declarations, or were held by a cache, which itself was filled by lowering or read from bytes.
-/

namespace SsaLowering.Proofs

open Ir Lowering Compilation Source List

/-- A function speaks only of its own values and blocks, and its tags are listed by value. -/
structure Contained (function : Function) : Prop where
  inRange : InRange function
  tags : TagsOrdered function

/-- Modules that are the same, up to how their layout tables keep the index. -/
structure SameModule (a b : Ir.Module) : Prop where
  name : a.name = b.name
  types : SameTable a.types b.types
  globals : a.globals = b.globals
  functions : a.functions = b.functions

lemma SameTable.symm {a b : LayoutTable} (h : SameTable a b) : SameTable b a :=
  ⟨h.layouts.symm, fun layout => (h.find layout).symm⟩

lemma reinterned_same {module : Ir.Module} (h : Interned module.types) :
    SameModule (reinterned module) module :=
  ⟨rfl, h.symm, rfl, rfl⟩

/-! ### What is read is contained -/

lemma inRange_of_dangling? {f : Function} (h : Decoding.dangling? f = none) : InRange f := by
  rw [Decoding.dangling?, Option.or_eq_none_iff, Option.or_eq_none_iff] at h
  obtain ⟨hvalues, hblocks, hrest⟩ := h
  have hvalue : ∀ info ∈ f.values.toList, (∀ v ∈ info.inst.operands, v.id < f.values.size) ∧
      (∀ b ∈ info.inst.successors, b.id < f.blocks.size) ∧
      ∀ b ∈ info.block, b.id < f.blocks.size := by
    intro info hinfo
    have hnone := findSome?_eq_none_iff.mp hvalues info hinfo
    split_ifs at hnone with hoperands hplaces
    simp only [Bool.not_eq_true', Bool.or_eq_true, not_or, Bool.not_eq_false, all_eq_true,
      Option.all_eq_true, Arena.holds, decide_eq_true_eq] at hoperands hplaces
    exact ⟨hoperands, hplaces.1, hplaces.2⟩
  have hblock : ∀ info ∈ f.blocks.toList, (∀ b ∈ info.preds, b.id < f.blocks.size) ∧
      ∀ v ∈ info.insts, v.id < f.values.size := by
    intro info hinfo
    have hnone := findSome?_eq_none_iff.mp hblocks info hinfo
    split_ifs at hnone with hpreds hinsts
    simp only [Bool.not_eq_true', Bool.not_eq_false, all_eq_true, Arena.holds,
      decide_eq_true_eq] at hpreds hinsts
    exact ⟨hpreds, hinsts⟩
  split_ifs at hrest with hparams hlayout
  simp only [Bool.not_eq_true', Bool.or_eq_true, not_or, Bool.not_eq_false, all_eq_true,
    Arena.holds, decide_eq_true_eq, mem_map, forall_exists_index, and_imp] at hparams hlayout
  exact
    { operands := fun info hinfo => (hvalue info hinfo).1
      successors := fun info hinfo => (hvalue info hinfo).2.1
      homes := fun info hinfo => (hvalue info hinfo).2.2
      preds := fun info hinfo => (hblock info hinfo).1
      insts := fun info hinfo => (hblock info hinfo).2
      params := hparams.1
      tags := fun entry hentry => hparams.2 _ entry hentry rfl
      layout := hlayout }

lemma mem_insertTags {tags : List (Value × List Tag)} {entry other : Value × List Tag}
    (h : other ∈ Decoding.insertTags tags entry) : other = entry ∨ other ∈ tags := by
  induction tags with
  | nil => exact .inl (mem_singleton.mp h)
  | cons first rest ih =>
    rw [Decoding.insertTags] at h
    split_ifs at h
    · exact (mem_cons.mp h).imp_right (mem_cons_of_mem _)
    · exact mem_cons.mp h
    · rcases mem_cons.mp h with rfl | hrest
      · exact .inr mem_cons_self
      · exact (ih hrest).imp_right (mem_cons_of_mem _)

lemma insertTags_ordered {tags : List (Value × List Tag)} (entry : Value × List Tag)
    (h : tags.Pairwise fun a b => a.1.id < b.1.id) :
    (Decoding.insertTags tags entry).Pairwise fun a b => a.1.id < b.1.id := by
  induction tags with
  | nil => exact pairwise_singleton _ _
  | cons first rest ih =>
    obtain ⟨hfirst, hrest⟩ := pairwise_cons.mp h
    rw [Decoding.insertTags]
    split_ifs with heq hlt
    · exact pairwise_cons.mpr ⟨fun other hother => heq ▸ hfirst other hother, hrest⟩
    · refine pairwise_cons.mpr ⟨fun other hother => ?_, h⟩
      rcases mem_cons.mp hother with rfl | hother
      · exact hlt
      · exact hlt.trans (hfirst other hother)
    · refine pairwise_cons.mpr ⟨fun other hother => ?_, ih hrest⟩
      rcases mem_insertTags hother with rfl | hother
      · have hne : other.1.id ≠ first.1.id := fun hid => heq (congrArg Value.mk hid)
        omega
      · exact hfirst other hother

lemma foldl_insertTags_ordered (entries : List (Value × List Tag)) :
    (entries.foldl Decoding.insertTags []).Pairwise fun a b => a.1.id < b.1.id :=
  List.foldlRecOn entries Decoding.insertTags List.Pairwise.nil
    fun _ hordered entry _ => insertTags_ordered entry hordered

/-- Whatever a reader gives has a property. -/
def ReadsOnly {α : Type} (reader : Decoding.Reader α) (P : α → Prop) : Prop :=
  ∀ cursor x next, reader.run cursor = .ok (x, next) → P x

namespace ReadsOnly

variable {α β : Type} {P : α → Prop} {Q : β → Prop}

lemma bind {reader : Decoding.Reader α} {next : α → Decoding.Reader β} (h : ReadsOnly reader P)
    (hnext : ∀ x, P x → ReadsOnly (next x) Q) : ReadsOnly (reader >>= next) Q := by
  intro cursor y last hrun
  obtain ⟨⟨x, middle⟩, hfirst, hsecond⟩ := bind_eq_ok_iff.mp hrun
  exact hnext x (h cursor x middle hfirst) middle y last hsecond

lemma after {reader : Decoding.Reader α} {next : α → Decoding.Reader β}
    (hnext : ∀ x, ReadsOnly (next x) Q) : ReadsOnly (reader >>= next) Q :=
  have hany : ReadsOnly reader fun _ => True := fun _ _ _ _ => trivial
  hany.bind fun x _ => hnext x

lemma pure {x : α} (h : P x) : ReadsOnly (Pure.pure x) P := by
  intro cursor y next hrun
  cases hrun
  exact h

lemma throw {error : DecodeError} : ReadsOnly (MonadExcept.throw error) P := by
  intro cursor y next hrun
  cases hrun

lemma repeated {element : Decoding.Reader α} (h : ReadsOnly element P) (count : Nat) :
    ReadsOnly (Decoding.repeated element count) fun items => ∀ x ∈ items, P x := by
  induction count with
  | zero => exact pure (by simp)
  | succ count ih =>
    refine bind h fun x hx => bind ih fun items hitems => pure ?_
    simpa [hx] using hitems

lemma sequence {element : Decoding.Reader α} (h : ReadsOnly element P) :
    ReadsOnly (Decoding.sequence element) fun items => ∀ x ∈ items, P x :=
  after fun count => repeated h count

end ReadsOnly

lemma readsOnly_function : ReadsOnly Decoding.function Contained := by
  refine .after fun name => .after fun ret => .after fun place => .after fun node =>
    .after fun values => .after fun blocks => .after fun params => .after fun layout =>
    .after fun tags => ?_
  dsimp only
  split
  · exact .throw
  · exact .pure ⟨inRange_of_dangling? ‹_›, foldl_insertTags_ordered tags⟩

lemma readsOnly_module :
    ReadsOnly Decoding.module fun module => ∀ f ∈ module.functions.toList, Contained f := by
  have hbody : ReadsOnly Decoding.body fun module => ∀ f ∈ module.functions.toList, Contained f := by
    refine .after fun name => .after fun layouts => .after fun globals => ?_
    exact .bind readsOnly_function.sequence fun functions hfunctions => .pure (by simpa using hfunctions)
  refine .after fun magic => ?_
  split_ifs
  · exact .throw
  · refine .after fun version => ?_
    split_ifs
    · exact .throw
    · exact hbody

lemma decode_contained {bytes : List UInt8} {module : Ir.Module}
    (h : Module.decode bytes = .ok module) : ∀ f ∈ module.functions.toList, Contained f := by
  obtain ⟨⟨result, cursor⟩, hrun, hrest⟩ := bind_eq_ok_iff.mp h
  dsimp only at hrest
  split at hrest
  · cases hrest
    exact readsOnly_module _ _ _ hrun
  · cases hrest

/-! ### What is lowered is contained -/

lemma declaration_contained (name : String) (tys : List Ty) (ret : Ty) (span : Span) (node : Nat) :
    Contained (Function.declaration name tys ret span node) where
  inRange := by
    have hvalue : ∀ info ∈ (Function.declaration name tys ret span node).values.toList,
        info.inst.operands = [] ∧ info.inst.successors = [] ∧ info.block = none := by
      intro info hinfo
      obtain ⟨position, hposition, rfl⟩ := mem_mapIdx.mp hinfo
      exact ⟨rfl, rfl, rfl⟩
    exact
      { operands := fun info hinfo => by simp [(hvalue info hinfo).1]
        successors := fun info hinfo => by simp [(hvalue info hinfo).2.1]
        homes := fun info hinfo => by simp [(hvalue info hinfo).2.2]
        preds := by simp [Function.declaration]
        insts := by simp [Function.declaration]
        params := by simp [Function.declaration]
        tags := by simp [Function.declaration]
        layout := by simp [Function.declaration] }
  tags := List.Pairwise.nil

/-- What a body of some stamp is lowered to without the cache. -/
structure Made (body : Core.Body) (stamp : Stamp) (entry : CacheEntry) : Prop where
  stamp_eq : entry.stamp = stamp
  name_eq : entry.function.name = body.name
  contained : Contained entry.function

lemma lowerFresh_made {env : Environment} {opts : Options} {body : Core.Body}
    {stamp : Stamp} {entry : CacheEntry} (h : (lowerFresh env opts body stamp).1 = .ok entry) :
    Made body stamp entry := by
  have hfinished := lowerBody_finished env body
  rw [lowerFresh] at h
  cases hfunction : (lowerBody env body).function with
  | error error =>
    simp only [hfunction] at h
    cases h
  | ok slotForm =>
    rw [hfunction] at hfinished
    obtain ⟨A, b, hb, hheader, rfl⟩ := hfinished
    simp only [hfunction] at h
    cases hconstruct : Ssa.construct b.function with
    | error fault =>
      rw [hconstruct] at h
      cases h
    | ok made =>
      obtain ⟨stats, function⟩ := made
      rw [hconstruct] at h
      obtain ⟨_, _, hentry⟩ := bind_eq_ok_iff.mp h
      cases hentry
      obtain ⟨hrange, htags⟩ := hb.construct_inRange hconstruct
      refine ⟨rfl, ?_, hrange, ?_⟩
      · exact (hb.wellFormed.construct_name hconstruct).trans (congrArg Prod.fst hheader)
      · rw [TagsOrdered, htags]
        exact List.Pairwise.nil

/-- The caches that there can be: empty ones, those that lowering a module leaves behind, and those
that are read from bytes, whatever the bytes are. -/
inductive Obtainable : Cache → Prop where
  | empty : Obtainable {}
  | lowered {cache next : Cache} (digest : Digest) (prog : Program) (opts : Options)
      (h : Obtainable cache)
      (hnext : (lowerModule digest prog opts (some cache)).cache = some next) : Obtainable next
  | loaded {cache : Cache} (bytes : List UInt8) (hload : Cache.load bytes = .ok cache) :
      Obtainable cache

lemma load_holding {bytes : List UInt8} {cache : Cache} (h : Cache.load bytes = .ok cache) :
    Holding (fun _ entry => Contained entry.function) cache := by
  rw [Cache.load] at h
  cases hdecode : Module.decode bytes with
  | error error =>
    rw [hdecode] at h
    cases h
  | ok module =>
    rw [hdecode] at h
    obtain ⟨entries, hentries, hcache⟩ := bind_eq_ok_iff.mp h
    cases hcache
    have htake : ∀ (functions : List Function) (old new : List (String × CacheEntry)),
        (∀ f ∈ functions, Contained f) → (∀ pair ∈ old, Contained pair.2.function) →
        functions.foldlM (Cache.takeIn module) old = .ok new →
        ∀ pair ∈ new, Contained pair.2.function := by
      intro functions
      induction functions with
      | nil =>
        intro old new _ hold hnew
        cases hnew
        exact hold
      | cons f rest ih =>
        intro old new hfunctions hold hnew
        obtain ⟨middle, hmiddle, hlast⟩ := bind_eq_ok_iff.mp hnew
        refine ih middle new (fun g hg => hfunctions g (mem_cons_of_mem _ hg)) ?_ hlast
        rw [Cache.takeIn] at hmiddle
        split at hmiddle
        · cases hmiddle
          intro pair hpair
          rcases mem_setEntry hpair with rfl | hpair
          · exact hfunctions f mem_cons_self
          · exact hold pair hpair
        · cases hmiddle
    exact htake _ [] entries (decode_contained hdecode) (by simp) hentries

lemma Obtainable.holding {cache : Cache} (h : Obtainable cache) :
    Holding (fun _ entry => Contained entry.function) cache := by
  induction h with
  | empty => exact holding_empty
  | @lowered cache next digest prog opts _ hnext ih =>
    have hcache : ∀ c ∈ some cache, Holding (fun _ entry => Contained entry.function) c := by
      intro c hc
      obtain rfl := Option.mem_some.mp hc
      exact ih
    exact lowerModule_holding hcache (fun _ _ _ _ _ _ hfresh => (lowerFresh_made hfresh).contained) next
      hnext
  | loaded bytes hload => exact load_holding hload

lemma lowerModule_contained {digest : Digest} {prog : Program} {opts : Options} {cache : Option Cache}
    {module : Ir.Module} (hcache : ∀ c ∈ cache, Obtainable c)
    (h : (lowerModule digest prog opts cache).result = .ok module) :
    Interned module.types ∧ ∀ f ∈ module.functions.toList, Contained f := by
  have hfunctions := lowerModule_functions h (fun c hc => (hcache c hc).holding)
    (fun _ _ _ _ _ _ hfresh => (lowerFresh_made hfresh).contained) (fun _ _ hentry => hentry)
    declaration_contained
  rw [hfunctions.1]
  exact ⟨(ofProgram_tidy digest prog).indexed.interned, hfunctions.2⟩

/-- Reading undoes writing, for every module that is interned and contained, and in particular for
every module that lowering gives. Sizes must be such that the words written for them hold them. -/
theorem encoded_modules_are_read_back :
    (∀ module : Ir.Module, FitsModule module → Interned module.types →
      (∀ f ∈ module.functions.toList, InRange f ∧ TagsOrdered f) →
      ∃ decoded, Module.decode module.encode = .ok decoded ∧ SameModule decoded module) ∧
    ∀ (digest : Digest) (program : Program) (options : Options) (cache : Option Cache)
      (module : Ir.Module), (∀ c ∈ cache, Obtainable c) →
      (lowerModule digest program options cache).result = .ok module → FitsModule module →
      ∃ decoded, Module.decode module.encode = .ok decoded ∧ SameModule decoded module := by
  have hall : ∀ module : Ir.Module, FitsModule module → Interned module.types →
      (∀ f ∈ module.functions.toList, InRange f ∧ TagsOrdered f) →
      ∃ decoded, Module.decode module.encode = .ok decoded ∧ SameModule decoded module := by
    intro module hfits hinterned hfunctions
    refine ⟨reinterned module, ?_, reinterned_same hinterned⟩
    exact decode_encode_reinterned hfits (fun f hf => (hfunctions f hf).1)
      fun f hf => (hfunctions f hf).2
  refine ⟨hall, fun digest program options cache module hcache hresult hfits => ?_⟩
  have hlowered := lowerModule_contained hcache hresult
  exact hall module hfits hlowered.1 fun f hf => ⟨(hlowered.2 f hf).inRange, (hlowered.2 f hf).tags⟩

/-- A program with a record and a result type, a global, a declaration, and a function that gives
the smaller one of its argument and the global. -/
def capped : Program :=
  let int (kind : ExprKind Nat Span Nat) : LoadedExpr := ⟨0, .zero, TypeTable.int, kind⟩
  let stmt (kind : StmtKind Nat Span Nat) : LoadedStmt := ⟨0, .zero, kind⟩
  let param : Param Nat Span := ⟨0, "n", TypeTable.int, false, .zero⟩
  let above : LoadedExpr := ⟨0, .zero, TypeTable.bool,
    .binary .lt (int (.globalVar "limit")) (int (.localVar 1 "m"))⟩
  let lower := stmt (.assign (int (.localVar 1 "m")) none (int (.globalVar "limit")))
  let body : LoadedBlock := ⟨0, .zero,
    [stmt (.letVar 1 "m" true false TypeTable.int (some (int (.localVar 0 "n")))),
      stmt (.ifElse above ⟨0, .zero, [lower], none⟩ none)], some (int (.localVar 1 "m"))⟩
  { name := "capped"
    types := ⟨TypeTable.initial.types ++ #[.data 0, .result TypeTable.int TypeTable.str],
      #[⟨"Entry", [("amount", TypeTable.int)]⟩]⟩
    items := [⟨0, .zero, "limit", .global TypeTable.int false (some (int (.literal (.int 10))))⟩,
      ⟨1, .zero, "log", .function [param] TypeTable.unit none⟩,
      ⟨2, .zero, "cap", .function [param] TypeTable.int (some body)⟩] }

/-- A module with a function that was removed down to a tagged value outside of any block. -/
def tagged : Ir.Module :=
  { name := "tagged"
    types := .ofList [.data "Entry" [.i64, .agg 1], .result "Result<Int, Str>" .i64 .ptr]
    functions := #[{ Function.declaration "f" [.i64] .void .zero 7 with
      tags := [(⟨0⟩, [⟨"key", "text"⟩])] }] }

theorem capped_and_tagged_are_read_back :
    (FitsModule tagged ∧ Interned tagged.types ∧
      (∀ f ∈ tagged.functions.toList, InRange f ∧ TagsOrdered f) ∧
      ∃ decoded, Module.decode tagged.encode = .ok decoded ∧ SameModule decoded tagged) ∧
    ∃ module, (lowerModule .fnv capped { verify := false } (some {})).result = .ok module ∧
      FitsModule module ∧
      ∃ decoded, Module.decode module.encode = .ok decoded ∧ SameModule decoded module := by
  have hfits : FitsModule tagged := by decide
  have hinterned : Interned tagged.types := ⟨rfl, fun _ => rfl⟩
  have hfunctions : ∀ f ∈ tagged.functions.toList, InRange f ∧ TagsOrdered f := by
    intro f hf
    obtain rfl := mem_singleton.mp hf
    exact ⟨inRange_of_dangling? (by decide), pairwise_singleton _ _⟩
  refine ⟨⟨hfits, hinterned, hfunctions,
    encoded_modules_are_read_back.1 tagged hfits hinterned hfunctions⟩, ?_⟩
  have hlowers : (lowerModule .fnv capped { verify := false } (some {})).result.toOption.any
      (fun module => decide (FitsModule module)) = true := by
    decide +kernel
  cases hresult : (lowerModule .fnv capped { verify := false } (some {})).result with
  | error error =>
    rw [hresult] at hlowers
    cases hlowers
  | ok module =>
    rw [hresult] at hlowers
    have hempty : ∀ c ∈ some ({} : Cache), Obtainable c := by
      intro c hc
      obtain rfl := Option.mem_some.mp hc
      exact .empty
    have hfits : FitsModule module := of_decide_eq_true hlowers
    exact ⟨module, rfl, hfits, encoded_modules_are_read_back.2 .fnv capped { verify := false }
      (some {}) module hempty hresult hfits⟩

end SsaLowering.Proofs
