import SsaLowering.Proofs.ReadingBack
import SsaLowering.Proofs.SavedCaches
import SsaLowering.Proofs.StampedContent

/-!
# Lowering with a cache

With a cache that is passed from one lowering to the next, and saved and loaded in between, modules
are lowered to what they are lowered to without one. Every entry of the cache was made from a body
in a program; where the digests tell different contents apart, a body that is found by its stamp is
that body, in a program with the same environment.
-/

namespace SsaLowering.Proofs

open Ir Lowering Compilation List
open Source (Program LoadedItem Tree TypeTable StaticType)
open SsaLowering.Core (Body fingerprint fingerprintAtoms bodyAtoms desugar)

variable {digest : Digest} {prog : Program} {item : LoadedItem} {cache : Cache}

/-! ### Environments -/

lemma types_eq_of_atoms {program' : Program} (h : Regular prog.types)
    (h' : Regular program'.types) (hatoms : fingerprintAtoms prog = fingerprintAtoms program') :
    prog.types = program'.types := by
  obtain ⟨htypes, hsame, -⟩ := fingerprintAtoms_eq hatoms
  have hget (id : Nat) : prog.types.get? id = program'.types.get? id := by
    rw [TypeTable.get?, TypeTable.get?, htypes]
  have hlt (data : Nat) : data < prog.types.datas.size ↔ data < program'.types.datas.size := by
    rw [h.datas, h'.datas]
    simp only [hget]
  have hdatas : prog.types.datas = program'.types.datas := by
    refine Array.ext_getElem? fun data => ?_
    by_cases hdata : data < prog.types.datas.size
    · obtain ⟨id, hid⟩ := (h.datas data).mp hdata
      have hdata' := (hlt data).mp hdata
      have heq : dataOf prog.types data = dataOf program'.types data := hsame id _ hid
      rw [dataOf, dataOf, TypeTable.data?, TypeTable.data?, Array.getElem?_eq_getElem hdata,
        Array.getElem?_eq_getElem hdata'] at heq
      rw [Array.getElem?_eq_getElem hdata, Array.getElem?_eq_getElem hdata']
      exact congrArg some heq
    · have hdata' := mt (hlt data).mpr hdata
      rw [Array.getElem?_eq_none (Nat.le_of_not_lt hdata),
        Array.getElem?_eq_none (Nat.le_of_not_lt hdata')]
  calc prog.types = ⟨prog.types.types, prog.types.datas⟩ := rfl
    _ = program'.types := by rw [htypes, hdatas]

lemma ofProgram_eq_of_atoms {program' : Program} (h : Regular prog.types)
    (h' : Regular program'.types) (hatoms : fingerprintAtoms prog = fingerprintAtoms program') :
    Environment.ofProgram digest prog = Environment.ofProgram digest program' := by
  have htypes := types_eq_of_atoms h h' hatoms
  have hglobals := (fingerprintAtoms_eq hatoms).2.2
  simp only [Environment.ofProgram, fingerprint, htypes, hglobals, hatoms]

/-! ### Histories -/

/-- A use of a cache: a program is lowered, or the cache is saved and what was saved is loaded. -/
inductive CacheUse where
  | lower (prog : Program) (opts : Options)
  | reload

/-- What becomes of the programs that are lowered with one cache. -/
def withCache (digest : Digest) (cache : Cache) :
    List CacheUse → Except CacheError (List ModuleOutcome)
  | [] => .ok []
  | .lower prog opts :: rest => do
    let outcome := lowerModule digest prog opts (some cache)
    return outcome :: (← withCache digest (outcome.cache.getD {}) rest)
  | .reload :: rest => do
    withCache digest (← Cache.load cache.save) rest

/-- What becomes of the programs that are lowered without a cache. -/
def withoutCache (digest : Digest) : List CacheUse → List ModuleOutcome
  | [] => []
  | .lower prog opts :: rest => lowerModule digest prog opts none :: withoutCache digest rest
  | .reload :: rest => withoutCache digest rest

/-- What can be seen of an outcome: the module or the error, and the reports. -/
def seen (outcome : ModuleOutcome) : Except LowerError Ir.Module × List Report :=
  (outcome.result, outcome.reports)

/-- A program is one of those that are lowered. -/
def LoweredIn (uses : List CacheUse) (prog : Program) : Prop :=
  ∃ opts, .lower prog opts ∈ uses

/-- A body is the core form of one of the functions of a program. -/
def BodyOf (prog : Program) (body : Body) : Prop :=
  ∃ item ∈ prog.items, desugar prog.types item = .ok (some body)

/-- Equal fingerprints and stamps of some programs are those of equal contents. -/
structure Collisionless (digest : Digest) (programs : Program → Prop) : Prop where
  fingerprints : ∀ p q, programs p → programs q → fingerprint digest p = fingerprint digest q →
    fingerprintAtoms p = fingerprintAtoms q
  stamps : ∀ p q body body', programs p → programs q → BodyOf p body → BodyOf q body' →
    body.stamp digest (fingerprint digest p) = body'.stamp digest (fingerprint digest q) →
    Atom.number (fingerprint digest p) :: bodyAtoms body =
      Atom.number (fingerprint digest q) :: bodyAtoms body'

/-- Whenever the cache is saved in the course of its uses, it fits into the binary form. -/
def SavesFit (digest : Digest) (cache : Cache) : List CacheUse → Prop
  | [] => True
  | .lower prog opts :: rest =>
    SavesFit digest ((lowerModule digest prog opts (some cache)).cache.getD {}) rest
  | .reload :: rest =>
    FitsModule cache.toModule ∧ ∀ next, Cache.load cache.save = .ok next → SavesFit digest next rest

/-! ### Where entries come from -/

/-- An entry was made, with or without verification, from a body of one of some programs. -/
def MadeFrom (digest : Digest) (programs : Program → Prop) (verify : Bool) (name : String)
    (entry : CacheEntry) : Prop :=
  ∃ prog body, programs prog ∧ BodyOf prog body ∧ body.name = name ∧
    entry.stamp = body.stamp digest (fingerprint digest prog) ∧
    (lowerFresh (.ofProgram digest prog) { verify } body entry.stamp).1 = .ok entry

/-- A cache that was filled from some programs. -/
structure FilledFrom (digest : Digest) (programs : Program → Prop) (verify : Bool) (cache : Cache) :
    Prop where
  made : Holding (MadeFrom digest programs verify) cache
  names : (cache.entries.map Prod.fst).Nodup

lemma keys_setEntry (entries : List (String × CacheEntry)) (name : String) (entry : CacheEntry) :
    (setEntry entries name entry).map Prod.fst =
      if name ∈ entries.map Prod.fst then entries.map Prod.fst
      else entries.map Prod.fst ++ [name] := by
  induction entries with
  | nil => simp [setEntry]
  | cons other rest ih =>
    rw [setEntry]
    by_cases heq : other.1 = name
    · simp [heq]
    · have hne : name ≠ other.1 := Ne.symm heq
      rw [if_neg heq, map_cons, ih]
      simp only [map_cons, mem_cons, hne, false_or]
      split <;> rfl

lemma nodup_setEntry {entries : List (String × CacheEntry)} (h : (entries.map Prod.fst).Nodup)
    (name : String) (entry : CacheEntry) : ((setEntry entries name entry).map Prod.fst).Nodup := by
  rw [keys_setEntry]
  split_ifs with hmem
  · exact h
  · exact nodup_append.mpr ⟨h, nodup_singleton name, fun a ha b hb heq =>
      hmem (mem_singleton.mp hb ▸ heq ▸ ha)⟩

section

variable {programs : Program → Prop} {verify : Bool} {opts : Options}

lemma lowerFresh_options (hverify : opts.verify = verify) (env : Environment) (body : Body)
    (stamp : Stamp) : lowerFresh env opts body stamp = lowerFresh env { verify } body stamp := by
  have hcheck (function : Function) :
      checkFunction env opts function = checkFunction env { verify } function := by
    simp only [checkFunction, hverify]
  simp only [lowerFresh, hcheck]

lemma taskOf_pending {body : Body} {stamp : Stamp} (hitem : item ∈ prog.items)
    (h : taskOf (.ofProgram digest prog) item = .pending body stamp) :
    BodyOf prog body ∧ stamp = body.stamp digest (fingerprint digest prog) := by
  rw [taskOf] at h
  split at h
  · cases h
  · cases h
  · next heq =>
    cases h
    exact ⟨⟨item, hitem, heq⟩, rfl⟩

lemma freshHas (hprogram : programs prog) (hverify : opts.verify = verify)
    (hitem : item ∈ prog.items) :
    FreshHas (MadeFrom digest programs verify) (.ofProgram digest prog) opts item := by
  intro body stamp entry htask hfresh
  obtain ⟨hbody, rfl⟩ := taskOf_pending hitem htask
  have hstamp := lowerFresh_stamp hfresh
  rw [lowerFresh_options hverify] at hfresh
  exact ⟨prog, body, hprogram, hbody, rfl, hstamp, hstamp ▸ hfresh⟩

variable (hregular : ∀ p, programs p → Regular p.types) (hdigest : Collisionless digest programs)
include hregular hdigest

lemma MadeFrom.lowerFresh_eq {body : Body} {entry : CacheEntry} {name : String}
    (h : MadeFrom digest programs verify name entry) (hprogram : programs prog)
    (hbody : BodyOf prog body) (hverify : opts.verify = verify)
    (hstamp : entry.stamp = body.stamp digest (fingerprint digest prog)) :
    (lowerFresh (.ofProgram digest prog) opts body entry.stamp).1 = .ok entry := by
  obtain ⟨program', body', hprogram', hbody', -, hstamp', hfresh⟩ := h
  have hatoms := hdigest.stamps prog program' body body' hprogram hprogram' hbody hbody'
    (hstamp.symm.trans hstamp')
  obtain ⟨hnumber, hcontent⟩ := List.cons.inj hatoms
  obtain rfl := bodyAtoms_inj hcontent
  have henv : Environment.ofProgram digest prog = Environment.ofProgram digest program' :=
    ofProgram_eq_of_atoms (hregular prog hprogram) (hregular program' hprogram')
      (hdigest.fingerprints prog program' hprogram hprogram' (number_inj.mp hnumber))
  rw [lowerFresh_options hverify, henv]
  exact hfresh

lemma lowerItem_agrees (hcache : FilledFrom digest programs verify cache) (hprogram : programs prog)
    (hverify : opts.verify = verify) (hitem : item ∈ prog.items) :
    (lowerItem (.ofProgram digest prog) opts (some cache) item).1.result =
        (lowerItem (.ofProgram digest prog) opts none item).1.result ∧
      ∃ next, (lowerItem (.ofProgram digest prog) opts (some cache) item).2 = some next ∧
        FilledFrom digest programs verify next := by
  have hholding : ∀ c ∈ (lowerItem (.ofProgram digest prog) opts (some cache) item).2,
      Holding (MadeFrom digest programs verify) c :=
    (lowerItem_holding (by simpa using hcache.made) (freshHas hprogram hverify hitem)).2
  cases htask : taskOf (.ofProgram digest prog) item with
  | settled result =>
    rw [lowerItem_settled htask, lowerItem_settled htask]
    exact ⟨rfl, cache, rfl, hcache⟩
  | pending body stamp =>
    obtain ⟨hbody, hstamp⟩ := taskOf_pending hitem htask
    have hwithout : (lowerItem (.ofProgram digest prog) opts none item).1.result =
        (lowerFresh (.ofProgram digest prog) opts body stamp).1.map some := by
      rw [lowerItem, htask]
    have hkept : ∀ entries, entriesOf (lowerItem (.ofProgram digest prog) opts (some cache) item).2 =
        some entries → (entries.map Prod.fst).Nodup →
        ∃ next, (lowerItem (.ofProgram digest prog) opts (some cache) item).2 = some next ∧
          FilledFrom digest programs verify next := by
      intro entries hentries hnodup
      obtain ⟨next, hnext, rfl⟩ := Option.map_eq_some_iff.mp hentries
      exact ⟨next, hnext, hholding next hnext, hnodup⟩
    have htreated : Treated (.ofProgram digest prog) opts body stamp (some cache)
        (lowerItem (.ofProgram digest prog) opts (some cache) item) := lowerItem_treated htask
    rw [hwithout]
    cases htreated with
    | found c entry hc hfind hresult hentries =>
      obtain rfl := Option.some.inj hc
      obtain ⟨hmem, rfl⟩ := mem_of_find? hfind
      have hfresh := (hcache.made _ hmem).lowerFresh_eq hregular hdigest hprogram hbody hverify
        hstamp
      rw [hresult, hfresh]
      exact ⟨rfl, hkept _ hentries hcache.names⟩
    | failed error hfresh hresult hentries =>
      rw [hresult, hfresh]
      exact ⟨rfl, hkept _ hentries hcache.names⟩
    | made entry hfresh hresult hentries =>
      rw [hresult, hfresh]
      exact ⟨rfl, hkept _ hentries (nodup_setEntry hcache.names body.name entry)⟩

lemma lowerItems_agrees {items : List LoadedItem} (hcache : FilledFrom digest programs verify cache)
    (hprogram : programs prog) (hverify : opts.verify = verify)
    (hitems : ∀ item ∈ items, item ∈ prog.items) :
    (lowerItems (.ofProgram digest prog) opts (some cache) items).1.map ItemOutcome.result =
        (lowerItems (.ofProgram digest prog) opts none items).1.map ItemOutcome.result ∧
      ∃ next, (lowerItems (.ofProgram digest prog) opts (some cache) items).2 = some next ∧
        FilledFrom digest programs verify next := by
  induction items generalizing cache with
  | nil => exact ⟨rfl, cache, rfl, hcache⟩
  | cons item rest ih =>
    have hnone : (lowerItem (.ofProgram digest prog) opts none item).2 = none := by
      cases htask : taskOf (.ofProgram digest prog) item with
      | settled result => rw [lowerItem_settled htask]
      | pending body stamp => rw [lowerItem, htask]
    obtain ⟨hresult, middle, hmiddle, hfilled⟩ := lowerItem_agrees hregular hdigest hcache hprogram
      hverify (hitems item mem_cons_self)
    obtain ⟨hresults, next, hnext, hlast⟩ := ih hfilled fun other hother =>
      hitems other (mem_cons_of_mem _ hother)
    simp only [lowerItems, hmiddle, hnone, map_cons]
    exact ⟨by rw [hresult, hresults], next, hnext, hlast⟩

omit hregular hdigest in
lemma gather_congr {env : Environment} {items : List LoadedItem} {outcomes outcomes' : List ItemOutcome}
    (h : outcomes.map ItemOutcome.result = outcomes'.map ItemOutcome.result) (module : Ir.Module)
    (reports : List Report) :
    gather env opts module reports (items.zip outcomes) =
      gather env opts module reports (items.zip outcomes') := by
  induction items generalizing outcomes outcomes' module reports with
  | nil => simp
  | cons item items ih =>
    cases outcomes with
    | nil =>
      obtain rfl := map_eq_nil_iff.mp h.symm
      rfl
    | cons outcome outcomes =>
      cases outcomes' with
      | nil => cases h
      | cons outcome' outcomes' =>
        obtain ⟨hfirst, hrest⟩ := List.cons.inj h
        simp only [zip_cons_cons, gather, hfirst, ih hrest]

lemma lowerModule_agrees (hcache : FilledFrom digest programs verify cache) (hprogram : programs prog)
    (hverify : opts.verify = verify) :
    seen (lowerModule digest prog opts (some cache)) = seen (lowerModule digest prog opts none) ∧
      ∃ next, (lowerModule digest prog opts (some cache)).cache = some next ∧
        FilledFrom digest programs verify next := by
  obtain ⟨hresults, next, hnext, hfilled⟩ := lowerItems_agrees hregular hdigest hcache hprogram
    hverify fun item hitem => hitem
  refine ⟨?_, next, hnext, hfilled⟩
  simp only [seen, lowerModule, gather_congr hresults]

end

/-! ### Saving and loading -/

section

variable {programs : Program → Prop} {verify : Bool}

lemma FilledFrom.storable (h : FilledFrom digest programs verify cache) : Storable cache where
  names := h.names
  named pair hpair := by
    obtain ⟨prog, body, -, -, hname, -, hfresh⟩ := h.made pair hpair
    exact (lowerFresh_made hfresh).name_eq.trans hname
  contained pair hpair := by
    obtain ⟨prog, body, -, -, -, -, hfresh⟩ := h.made pair hpair
    exact (lowerFresh_made hfresh).contained

lemma FilledFrom.load (h : FilledFrom digest programs verify cache) :
    FilledFrom digest programs verify { entries := cache.saved } where
  made pair hpair := h.made pair (mem_saved hpair).1
  names := saved_nodup h.names

end

lemma filledFrom_empty (digest : Digest) (programs : Program → Prop) (verify : Bool) :
    FilledFrom digest programs verify {} :=
  ⟨holding_empty, nodup_nil⟩

lemma withCache_agrees {programs : Program → Prop} {verify : Bool} {uses : List CacheUse}
    (hregular : ∀ p, programs p → Regular p.types) (hdigest : Collisionless digest programs)
    (huses : ∀ p opts, .lower p opts ∈ uses → programs p ∧ opts.verify = verify)
    (hcache : FilledFrom digest programs verify cache) (hfits : SavesFit digest cache uses) :
    ∃ outcomes, withCache digest cache uses = .ok outcomes ∧
      outcomes.map seen = (withoutCache digest uses).map seen := by
  induction uses generalizing cache with
  | nil => exact ⟨[], rfl, rfl⟩
  | cons use rest ih =>
    have hrest : ∀ p opts, .lower p opts ∈ rest → programs p ∧ opts.verify = verify :=
      fun p opts hmem => huses p opts (mem_cons_of_mem _ hmem)
    cases use with
    | lower prog opts =>
      obtain ⟨hprogram, hverify⟩ := huses prog opts mem_cons_self
      obtain ⟨hseen, next, hnext, hfilled⟩ := lowerModule_agrees hregular hdigest hcache hprogram
        hverify
      rw [SavesFit, hnext] at hfits
      obtain ⟨outcomes, hrun, hagree⟩ := ih hrest hfilled hfits
      refine ⟨lowerModule digest prog opts (some cache) :: outcomes, ?_, ?_⟩
      · rw [withCache, hnext]
        simp only [Option.getD_some, hrun]
        rfl
      · rw [withoutCache, map_cons, map_cons, hseen, hagree]
    | reload =>
      have hload := load_save hcache.storable hfits.1
      obtain ⟨outcomes, hrun, hagree⟩ := ih hrest hcache.load (hfits.2 _ hload)
      refine ⟨outcomes, ?_, hagree⟩
      rw [withCache, hload]
      exact hrun

/-- Every lowering in a history, with one cache from an empty one on that may be saved and loaded in
between, gives the module or error and the reports that it gives without a cache. The digests have to
tell the contents in this history apart, and what is saved has to fit. -/
theorem cache_is_transparent (digest : Digest) (verify : Bool) (uses : List CacheUse)
    (huses : ∀ program options, .lower program options ∈ uses →
      (∃ tree : Tree, tree.load = .ok program) ∧ options.verify = verify)
    (hdigest : Collisionless digest (LoweredIn uses)) (hfits : SavesFit digest {} uses) :
    ∃ outcomes, withCache digest {} uses = .ok outcomes ∧
      outcomes.map seen = (withoutCache digest uses).map seen := by
  refine withCache_agrees (fun program hprogram => ?_) hdigest (fun program options hmem => ?_)
    (filledFrom_empty digest _ verify) hfits
  · obtain ⟨options, hmem⟩ := hprogram
    obtain ⟨⟨tree, hload⟩, -⟩ := huses program options hmem
    exact load_regular hload
  · exact ⟨⟨options, hmem⟩, (huses program options hmem).2⟩

/-- A module with one function, which adds its argument to itself. -/
def doubleTree : Tree :=
  let argument : Source.Expr Source.TypeName Source.Bounds Unit :=
    ⟨(), none, .int, .localVar 0 "n"⟩
  { name := "double"
    datas := []
    items := [⟨(), some (0, 20), "double", .function [⟨0, "n", .int, false, none⟩] .int
      (some ⟨(), none, [], some ⟨(), none, .int, .binary .add argument argument⟩⟩)⟩] }

def doubleItem : LoadedItem :=
  let argument (node : Nat) : Source.LoadedExpr := ⟨node, .zero, TypeTable.int, .localVar 0 "n"⟩
  ⟨4, ⟨0, 20, by decide⟩, "double", .function [⟨0, "n", TypeTable.int, false, .zero⟩] TypeTable.int
    (some ⟨3, .zero, [], some ⟨2, .zero, TypeTable.int, .binary .add (argument 0) (argument 1)⟩⟩)⟩

/-- A program with one function, which doubles its argument. -/
def double : Program :=
  { name := "double", types := .initial, items := [doubleItem] }

/-- The module is lowered twice, and the cache is saved and loaded in between. -/
def doubleUses : List CacheUse :=
  [.lower double { verify := false }, .reload, .lower double { maxReports := some 0, verify := false }]

lemma double_loads : doubleTree.load = .ok double := rfl

lemma double_fits : SavesFit .fnv {} doubleUses := by
  have hfits : FitsModule
      ((lowerModule .fnv double { verify := false } (some {})).cache.getD {}).toModule := by
    decide +kernel
  exact ⟨hfits, fun _ _ => trivial⟩

lemma double_uses {opts : Options} (h : .lower prog opts ∈ doubleUses) :
    prog = double ∧ opts.verify = false := by
  simp only [doubleUses, mem_cons, CacheUse.lower.injEq, reduceCtorEq, not_mem_nil,
    or_false, false_or] at h
  rcases h with ⟨rfl, rfl⟩ | ⟨rfl, rfl⟩ <;> exact ⟨rfl, rfl⟩

/-- The program has one body only, so no two of its contents can be mixed up. -/
lemma collisionless_of_double {programs : Program → Prop} (h : ∀ p, programs p → p = double) :
    Collisionless digest programs where
  fingerprints := by
    intro p q hp hq _
    rw [h p hp, h q hq]
  stamps := by
    intro p q body body' hp hq hbody hbody' _
    obtain rfl := h p hp
    obtain rfl := h q hq
    obtain ⟨item, hitem, heq⟩ := hbody
    obtain ⟨item', hitem', heq'⟩ := hbody'
    obtain rfl := mem_singleton.mp hitem
    obtain rfl := mem_singleton.mp hitem'
    obtain rfl := Option.some.inj (Except.ok.inj (heq.symm.trans heq'))
    rfl

lemma double_collisionless : Collisionless .fnv (LoweredIn doubleUses) :=
  collisionless_of_double fun _ ⟨_, hp⟩ => (double_uses hp).1

theorem double_with_cache :
    (∀ program options, .lower program options ∈ doubleUses →
      (∃ tree : Tree, tree.load = .ok program) ∧ options.verify = false) ∧
    Collisionless .fnv (LoweredIn doubleUses) ∧ SavesFit .fnv {} doubleUses ∧
    ∃ outcomes, withCache .fnv {} doubleUses = .ok outcomes ∧
      outcomes.map seen = (withoutCache .fnv doubleUses).map seen := by
  have huses : ∀ program options, .lower program options ∈ doubleUses →
      (∃ tree : Tree, tree.load = .ok program) ∧ options.verify = false := by
    intro program options hmem
    obtain ⟨rfl, hverify⟩ := double_uses hmem
    exact ⟨⟨doubleTree, double_loads⟩, hverify⟩
  exact ⟨huses, double_collisionless, double_fits,
    cache_is_transparent .fnv false doubleUses huses double_collisionless double_fits⟩

end SsaLowering.Proofs
