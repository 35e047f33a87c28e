import SsaLowering.Compilation.Module
import Mathlib.Data.List.Basic
import Mathlib.Tactic.Basic

/-!
# Runs over the items of a module

What lowering an item can do: give what the cache holds, or make a new entry and put it there. So a
property of entries that every new one has is kept by the cache, and every function of the module
is a declaration or that of such an entry.
-/

namespace SsaLowering.Proofs

open Ir Lowering Compilation Source List
open SsaLowering.Core (Body)

variable {entry : CacheEntry} {stamp : Stamp} {P : String → CacheEntry → Prop} {item : LoadedItem}
  {module : Ir.Module}

/-! ### Caches -/

/-- Every entry of a cache has a property, which may depend on the name. -/
def Holding (P : String → CacheEntry → Prop) (cache : Cache) : Prop :=
  ∀ pair ∈ cache.entries, P pair.1 pair.2

lemma mem_setEntry {entries : List (String × CacheEntry)} {name : String}
    {pair : String × CacheEntry} (h : pair ∈ setEntry entries name entry) :
    pair = (name, entry) ∨ pair ∈ entries := by
  induction entries with
  | nil => exact .inl (mem_singleton.mp h)
  | cons other rest ih =>
    rw [setEntry] at h
    split at h
    · rcases mem_cons.mp h with hpair | hrest
      · exact .inl hpair
      · exact .inr (mem_cons_of_mem _ hrest)
    · rcases mem_cons.mp h with hpair | hrest
      · exact .inr (hpair ▸ mem_cons_self)
      · exact (ih hrest).imp_right (mem_cons_of_mem _)

lemma mem_of_find? {cache : Cache} {name : String} (h : cache.find? name stamp = some entry) :
    (name, entry) ∈ cache.entries ∧ entry.stamp = stamp := by
  obtain ⟨hlookup, hstamp⟩ := Option.filter_eq_some_iff.mp h
  obtain ⟨before, after, heq, -⟩ := lookup_eq_some_iff.mp hlookup
  refine ⟨?_, by simpa using hstamp⟩
  rw [heq]
  exact mem_append_right _ mem_cons_self

lemma holding_empty : Holding P {} := by
  intro pair hpair
  cases hpair

lemma find?_of_entries_eq {a b : Cache} (h : a.entries = b.entries) (name : String)
    (stamp : Stamp) : a.find? name stamp = b.find? name stamp := by
  rw [Cache.find?, Cache.find?, h]

lemma entries_get (cache : Cache) (name : String) (stamp : Stamp) :
    (cache.get name stamp).1 = cache.find? name stamp ∧
      (cache.get name stamp).2.entries = cache.entries := by
  rw [Cache.get]
  cases cache.find? name stamp <;> exact ⟨rfl, rfl⟩

/-! ### Items -/

lemma taskOf_settled {env : Environment} {result : Except LowerError (Option CacheEntry)}
    (h : taskOf env item = .settled result) (entry : CacheEntry) : result ≠ .ok (some entry) := by
  rintro rfl
  rw [taskOf] at h
  split at h <;> cases h

lemma lowerFresh_stamp {env : Environment} {opts : Options} {body : Body}
    (h : (lowerFresh env opts body stamp).1 = .ok entry) : entry.stamp = stamp := by
  rw [lowerFresh] at h
  cases hfunction : (lowerBody env body).function with
  | error error =>
    simp only [hfunction] at h
    cases h
  | ok slotForm =>
    simp only [hfunction] at h
    cases hconstruct : Ssa.construct slotForm with
    | error fault =>
      rw [hconstruct] at h
      cases h
    | ok made =>
      rw [hconstruct] at h
      dsimp only at h
      cases hcheck : checkFunction env opts made.2 with
      | error error =>
        rw [hcheck] at h
        cases h
      | ok _ =>
        rw [hcheck] at h
        cases h
        rfl

section Items

variable {env : Environment} {opts : Options} {cache : Option Cache}

def entriesOf (cache : Option Cache) : Option (List (String × CacheEntry)) :=
  cache.map Cache.entries

/-- What becomes of an item whose body has some stamp: its entry is found, or it is lowered, which
fails or gives a new entry that the cache takes in. -/
inductive Treated (env : Environment) (opts : Options) (body : Body) (stamp : Stamp)
    (cache : Option Cache) (run : ItemOutcome × Option Cache) : Prop where
  | found (c : Cache) (entry : CacheEntry) (hcache : cache = some c)
      (hfind : c.find? body.name stamp = some entry) (hresult : run.1.result = .ok (some entry))
      (hentries : entriesOf run.2 = entriesOf cache)
  | failed (error : LowerError) (hfresh : (lowerFresh env opts body stamp).1 = .error error)
      (hresult : run.1.result = .error error) (hentries : entriesOf run.2 = entriesOf cache)
  | made (entry : CacheEntry) (hfresh : (lowerFresh env opts body stamp).1 = .ok entry)
      (hresult : run.1.result = .ok (some entry))
      (hentries : entriesOf run.2 =
        (entriesOf cache).map fun entries => setEntry entries body.name entry)

lemma lowerItem_settled {result : Except LowerError (Option CacheEntry)}
    (htask : taskOf env item = .settled result) :
    lowerItem env opts cache item = ({ result }, cache) := by
  rw [lowerItem, htask]

lemma lowerItem_treated {body : Body} (htask : taskOf env item = .pending body stamp) :
    Treated env opts body stamp cache (lowerItem env opts cache item) := by
  rw [lowerItem, htask]
  cases cache with
  | none =>
    dsimp only
    cases hfresh : (lowerFresh env opts body stamp).1 with
    | error error => exact .failed error hfresh rfl rfl
    | ok entry => exact .made entry hfresh rfl rfl
  | some cache =>
    dsimp only
    obtain ⟨hget, hentries⟩ := entries_get cache body.name stamp
    cases hfound : cache.get body.name stamp with
    | mk found counted =>
      rw [hfound] at hget hentries
      cases found with
      | some entry => exact .found cache entry rfl hget.symm rfl (congrArg some hentries)
      | none =>
        cases hlower : lowerFresh env opts body stamp with
        | mk result events =>
          cases result with
          | error error => exact .failed error (by rw [hlower]) rfl (congrArg some hentries)
          | ok entry =>
            -- the search went by the stamp that the new entry has
            have hfresh : (lowerFresh env opts body stamp).1 = .ok entry := by rw [hlower]
            have hnone : counted.find? body.name entry.stamp = none := by
              rw [lowerFresh_stamp hfresh, find?_of_entries_eq hentries]
              exact hget.symm
            refine .made entry hfresh ?_ ?_
            · simp [Cache.insert, hnone]
            · simp only [Cache.insert, hnone, entriesOf, Option.map_some]
              rw [show counted.entries = cache.entries from hentries]

/-- What the item is lowered to without the cache has the property. -/
def FreshHas (P : String → CacheEntry → Prop) (env : Environment) (opts : Options)
    (item : LoadedItem) : Prop :=
  ∀ body stamp entry, taskOf env item = .pending body stamp →
    (lowerFresh env opts body stamp).1 = .ok entry → P body.name entry

def OutcomeHas (P : String → CacheEntry → Prop) (outcome : ItemOutcome) : Prop :=
  ∀ entry, outcome.result = .ok (some entry) → ∃ name, P name entry

lemma holding_of_entries_eq {after : Option Cache} (h : entriesOf after = entriesOf cache)
    (hcache : ∀ c ∈ cache, Holding P c) : ∀ c ∈ after, Holding P c := by
  rintro c rfl
  obtain ⟨c', hc', heq⟩ := Option.map_eq_some_iff.mp h.symm
  rw [Holding, ← heq]
  exact hcache c' hc'

lemma lowerItem_holding (hcache : ∀ c ∈ cache, Holding P c) (hfresh : FreshHas P env opts item) :
    OutcomeHas P (lowerItem env opts cache item).1 ∧
      ∀ c ∈ (lowerItem env opts cache item).2, Holding P c := by
  cases htask : taskOf env item with
  | settled result =>
    rw [lowerItem_settled htask]
    exact ⟨fun entry hentry => absurd hentry (taskOf_settled htask entry), hcache⟩
  | pending body stamp =>
    have htreated : Treated env opts body stamp cache (lowerItem env opts cache item) :=
      lowerItem_treated htask
    cases htreated with
    | found c entry hc hfind hresult hentries =>
      refine ⟨fun other hother => ⟨body.name, ?_⟩, holding_of_entries_eq hentries hcache⟩
      obtain rfl := Option.some.inj (Except.ok.inj (hresult.symm.trans hother))
      exact hcache c hc _ (mem_of_find? hfind).1
    | failed error hfailed hresult hentries =>
      refine ⟨fun other hother => ?_, holding_of_entries_eq hentries hcache⟩
      cases hresult.symm.trans hother
    | made entry hmade hresult hentries =>
      have hentry := hfresh body stamp entry htask hmade
      refine ⟨fun other hother => ⟨body.name, ?_⟩, ?_⟩
      · obtain rfl := Option.some.inj (Except.ok.inj (hresult.symm.trans hother))
        exact hentry
      · intro c hc pair hpair
        rw [show (lowerItem env opts cache item).2 = some c from hc, entriesOf, entriesOf,
          Option.map_some, Option.map_map] at hentries
        obtain ⟨c', hc', heq⟩ := Option.map_eq_some_iff.mp hentries.symm
        rw [← heq] at hpair
        rcases mem_setEntry hpair with rfl | hold
        · exact hentry
        · exact hcache c' hc' pair hold

lemma lowerItems_holding {items : List LoadedItem} (hcache : ∀ c ∈ cache, Holding P c)
    (hfresh : ∀ item ∈ items, FreshHas P env opts item) :
    (∀ outcome ∈ (lowerItems env opts cache items).1, OutcomeHas P outcome) ∧
      ∀ c ∈ (lowerItems env opts cache items).2, Holding P c := by
  induction items generalizing cache with
  | nil => exact ⟨by simp [lowerItems], hcache⟩
  | cons item rest ih =>
    have hitem := lowerItem_holding hcache (hfresh item mem_cons_self)
    have hrest := ih hitem.2 fun other hother => hfresh other (mem_cons_of_mem _ hother)
    refine ⟨fun outcome houtcome => ?_, hrest.2⟩
    rcases mem_cons.mp houtcome with rfl | hmem
    · exact hitem.1
    · exact hrest.1 outcome hmem

end Items

/-! ### Modules -/

section Modules

variable {Q : Function → Prop} {env : Environment} {opts : Options}

lemma addItem_functions {next : Ir.Module} {entry : Option CacheEntry}
    (h : addItem env module item entry = .ok next) (hmodule : ∀ f ∈ module.functions.toList, Q f)
    (hentry : ∀ e ∈ entry, Q e.function)
    (hdeclared : ∀ name tys ret span node, Q (Function.declaration name tys ret span node)) :
    next.types = module.types ∧ ∀ f ∈ next.functions.toList, Q f := by
  have hpush : ∀ made, Q made → ∀ f ∈ (module.functions.push made).toList, Q f := by
    intro made hmade f hf
    rw [Array.toList_push] at hf
    rcases mem_append.mp hf with hold | hnew
    · exact hmodule f hold
    · exact mem_singleton.mp hnew ▸ hmade
  unfold addItem at h
  cases hkind : item.kind with
  | function params ret body =>
    rw [hkind] at h
    cases entry with
    | some given =>
      cases h
      exact ⟨rfl, hpush _ (hentry _ rfl)⟩
    | none =>
      cases h
      exact ⟨rfl, hpush _ (hdeclared _ _ _ _ _)⟩
  | global ty mutable init =>
    rw [hkind] at h
    cases init with
    | none =>
      cases h
      exact ⟨rfl, hmodule⟩
    | some init =>
      dsimp only at h
      cases hinit : constantOf init with
      | error error =>
        rw [hinit] at h
        cases h
      | ok value =>
        rw [hinit] at h
        cases h
        exact ⟨rfl, hmodule⟩

lemma gather_functions {outcomes : List (LoadedItem × ItemOutcome)} {result : Ir.Module}
    {reports : List Report} (h : (gather env opts module reports outcomes).1 = .ok result)
    (hmodule : ∀ f ∈ module.functions.toList, Q f)
    (hentry : ∀ pair ∈ outcomes, ∀ e, pair.2.result = .ok (some e) → Q e.function)
    (hdeclared : ∀ name tys ret span node, Q (Function.declaration name tys ret span node)) :
    result.types = module.types ∧ ∀ f ∈ result.functions.toList, Q f := by
  induction outcomes generalizing module reports with
  | nil =>
    cases h
    exact ⟨rfl, hmodule⟩
  | cons pair rest ih =>
    obtain ⟨item, outcome⟩ := pair
    rw [gather] at h
    cases hresult : outcome.result with
    | error error =>
      rw [hresult] at h
      cases h
    | ok entry =>
      simp only [hresult] at h
      split at h
      · cases h
      · cases hadd : addItem env module item entry with
        | error error =>
          rw [hadd] at h
          cases h
        | ok next =>
          rw [hadd] at h
          have hgiven : ∀ e ∈ entry, Q e.function := by
            rintro e rfl
            exact hentry _ mem_cons_self e hresult
          have hnext := addItem_functions hadd hmodule hgiven hdeclared
          have hrest := ih h hnext.2 fun other hother => hentry other (mem_cons_of_mem _ hother)
          exact ⟨hrest.1.trans hnext.1, hrest.2⟩

/-- The functions of a lowered module are declarations and those of entries, fresh ones and ones
from the cache. -/
lemma lowerModule_functions {digest : Digest} {prog : Program} {cache : Option Cache}
    (h : (lowerModule digest prog opts cache).result = .ok module)
    (hcache : ∀ c ∈ cache, Holding P c)
    (hfresh : ∀ item ∈ prog.items, FreshHas P (.ofProgram digest prog) opts item)
    (hentry : ∀ name entry, P name entry → Q entry.function)
    (hdeclared : ∀ name tys ret span node, Q (Function.declaration name tys ret span node)) :
    module.types = (Environment.ofProgram digest prog).layouts ∧
      ∀ f ∈ module.functions.toList, Q f := by
  have hitems := lowerItems_holding hcache hfresh
  refine gather_functions h (by simp) (fun pair hpair e he => ?_) hdeclared
  obtain ⟨name, hname⟩ := hitems.1 pair.2 (of_mem_zip hpair).2 e he
  exact hentry name e hname

lemma lowerModule_holding {digest : Digest} {prog : Program} {cache : Option Cache}
    (hcache : ∀ c ∈ cache, Holding P c)
    (hfresh : ∀ item ∈ prog.items, FreshHas P (.ofProgram digest prog) opts item) :
    ∀ c ∈ (lowerModule digest prog opts cache).cache, Holding P c :=
  (lowerItems_holding hcache hfresh).2

end Modules

end SsaLowering.Proofs
