import SsaLowering.Proofs.ModuleRoundTrip

/-!
# Saved caches

A cache is saved as a module in which a global of the name of each function holds its stamp. Loading
what was saved gives the entries without reports, in the order of their names, and saving these gives
the same bytes again.
-/

namespace SsaLowering.Proofs

open Ir Compilation List

/-- A cache that can be saved: there is one entry for each name, held under the name of its function,
and the functions are self-contained. -/
structure Storable (cache : Cache) : Prop where
  names : (cache.entries.map Prod.fst).Nodup
  named : ∀ pair ∈ cache.entries, pair.2.function.name = pair.1
  contained : ∀ pair ∈ cache.entries, Contained pair.2.function

variable {cache : Cache}

lemma mem_saved {pair : String × CacheEntry} (h : pair ∈ cache.saved) :
    pair ∈ cache.entries ∧ pair.2.reports = [] := by
  obtain ⟨hmem, hreports⟩ := mem_filter.mp (mem_mergeSort.mp h)
  exact ⟨hmem, by simpa using hreports⟩

lemma saved_nodup (h : (cache.entries.map Prod.fst).Nodup) : (cache.saved.map Prod.fst).Nodup := by
  have hperm := (mergeSort_perm (cache.entries.filter fun pair => pair.2.reports.isEmpty)
    fun a b => decide (a.1 ≤ b.1)).map Prod.fst
  exact hperm.nodup_iff.mpr (h.sublist (filter_sublist.map Prod.fst))

lemma stampIn?_toModule {module : Ir.Module} (hmodule : module.globals = cache.toModule.globals)
    (h : (cache.saved.map Prod.fst).Nodup) {pair : String × CacheEntry}
    (hpair : pair ∈ cache.saved) : Cache.stampIn? module pair.1 = some pair.2.stamp := by
  have hfind : ∀ pairs : List (String × CacheEntry), (pairs.map Prod.fst).Nodup → pair ∈ pairs →
      (pairs.map fun pair =>
        ({ name := pair.1, ty := .i64, init := .int pair.2.stamp.toInt64 } : Global)).find?
          (·.name == pair.1) = some ⟨pair.1, .i64, .int pair.2.stamp.toInt64⟩ := by
    intro pairs hnodup hmem
    induction pairs with
    | nil => cases hmem
    | cons other rest ih =>
      rw [map_cons, nodup_cons] at hnodup
      rcases mem_cons.mp hmem with rfl | hmem
      · simp
      · have hne : other.1 ≠ pair.1 := fun heq =>
          hnodup.1 (heq ▸ mem_map_of_mem hmem)
        rw [map_cons, find?_cons_of_neg (by simpa using hne)]
        exact ih hnodup.2 hmem
  rw [Cache.stampIn?, Module.global?, hmodule]
  simp only [Cache.toModule, hfind cache.saved h hpair]
  rfl

lemma setEntry_new {entries : List (String × CacheEntry)} {name : String} (entry : CacheEntry)
    (h : name ∉ entries.map Prod.fst) : setEntry entries name entry = entries ++ [(name, entry)] := by
  induction entries with
  | nil => rfl
  | cons other rest ih =>
    rw [map_cons, mem_cons, not_or] at h
    rw [setEntry, if_neg (Ne.symm h.1), ih h.2]
    rfl

/-- Loading what was saved gives the entries without reports. -/
lemma load_save (h : Storable cache) (hfits : FitsModule cache.toModule) :
    Cache.load cache.save = .ok { entries := cache.saved } := by
  have hfunction : ∀ f ∈ cache.toModule.functions.toList, Contained f := by
    intro f hf
    obtain ⟨pair, hpair, rfl⟩ := mem_map.mp hf
    exact h.contained pair (mem_saved hpair).1
  have hdecode : Module.decode cache.save = .ok (reinterned cache.toModule) :=
    decode_encode_reinterned hfits (fun f hf => (hfunction f hf).inRange)
      fun f hf => (hfunction f hf).tags
  have hnodup := saved_nodup h.names
  -- the entries that are taken in stand in the order in which they were saved
  have htake : ∀ before after : List (String × CacheEntry), cache.saved = before ++ after →
      (after.map fun pair => pair.2.function).foldlM
        (Cache.takeIn (reinterned cache.toModule)) before = .ok cache.saved := by
    intro before after
    induction after generalizing before with
    | nil =>
      intro heq
      rw [heq, append_nil]
      rfl
    | cons pair after ih =>
      intro heq
      have hpair : pair ∈ cache.saved := by
        rw [heq]
        exact mem_append_right _ mem_cons_self
      obtain ⟨hentry, hreports⟩ := mem_saved hpair
      have hname := h.named pair hentry
      have hnew : pair.1 ∉ before.map Prod.fst := by
        rw [heq, map_append, map_cons] at hnodup
        exact fun hmem => (nodup_append.mp hnodup).2.2 _ hmem _ mem_cons_self rfl
      have hstep : Cache.takeIn (reinterned cache.toModule) before pair.2.function =
          .ok (before ++ [pair]) := by
        have hstamp : Cache.stampIn? (reinterned cache.toModule) pair.1 = some pair.2.stamp :=
          stampIn?_toModule rfl hnodup hpair
        rw [Cache.takeIn, hname, hstamp]
        dsimp only
        rw [setEntry_new _ hnew]
        obtain ⟨name, stamp, function, reports⟩ := pair
        obtain rfl : reports = [] := hreports
        rfl
      rw [map_cons, foldlM_cons, hstep]
      exact ih (before ++ [pair]) (by rw [heq, append_assoc, singleton_append])
  have hall := htake [] cache.saved rfl
  have hfunctions : (reinterned cache.toModule).functions.toList =
      cache.saved.map fun pair => pair.2.function := by
    simp [reinterned, Cache.toModule]
  rw [Cache.load, hdecode]
  simp only [hfunctions, hall]
  rfl

/-- What was saved is in order, so it is saved as it stands. -/
lemma saved_saved (cache : Cache) : Cache.saved { entries := cache.saved } = cache.saved := by
  have hall : cache.saved.filter (fun pair => pair.2.reports.isEmpty) = cache.saved := by
    refine filter_eq_self.mpr fun pair hpair => ?_
    rw [(mem_saved hpair).2]
    rfl
  have hsorted : cache.saved.Pairwise fun a b => decide (a.1 ≤ b.1) = true := by
    refine pairwise_mergeSort (fun a b c hab hbc => ?_) (fun a b => ?_) _
    · simp only [decide_eq_true_eq] at hab hbc ⊢
      exact hab.trans hbc
    · simp only [Bool.or_eq_true, decide_eq_true_eq]
      exact le_total a.1 b.1
  rw [Cache.saved, hall]
  exact mergeSort_of_pairwise hsorted

/-- Loading what was saved gives back exactly the entries without reports, each under its name and
with its stamp and its function, and saving them again gives the same bytes. -/
theorem saved_caches_are_loaded (h : Storable cache) (hfits : FitsModule cache.toModule) :
    ∃ loaded, Cache.load cache.save = .ok loaded ∧ (loaded.entries.map Prod.fst).Nodup ∧
      (∀ name, loaded.entries.lookup name =
        (cache.entries.lookup name).filter fun entry => entry.reports.isEmpty) ∧
      loaded.save = cache.save := by
  refine ⟨_, load_save h hfits, saved_nodup h.names, fun name => ?_, ?_⟩
  · refine Option.ext fun entry => ?_
    rw [lookup_eq_some_iff_mem (saved_nodup h.names), Option.filter_eq_some_iff,
      lookup_eq_some_iff_mem h.names, Cache.saved, mem_mergeSort, mem_filter]
  · simp only [Cache.save, Cache.toModule, saved_saved]

def declared (name : String) (stamp : Stamp) (reports : List Lowering.Report) : String × CacheEntry :=
  (name, ⟨stamp, Function.declaration name [.i64] .void .zero 7, reports⟩)

/-- A cache with the greatest stamp, in which the names are not in order and one entry has a report. -/
def mixed : Cache where
  entries := [declared "late" 0xffffffffffffffff [], declared "early" 1 [],
    declared "faulty" 2 [⟨.missingReturn, .zero, "no value"⟩]]

lemma saved_mixed : mixed.saved = [declared "early" 1 [], declared "late" 0xffffffffffffffff []] := by
  have hfilter : mixed.entries.filter (fun pair => pair.2.reports.isEmpty) =
      [declared "late" 0xffffffffffffffff [], declared "early" 1 []] := rfl
  have horder : ¬ (declared "late" 0xffffffffffffffff []).1 ≤ (declared "early" 1 []).1 := by decide
  rw [Cache.saved, hfilter]
  simp [List.mergeSort, List.MergeSort.Internal.splitInTwo, horder]

theorem mixed_is_loaded : Storable mixed ∧ FitsModule mixed.toModule ∧
    ∃ loaded, Cache.load mixed.save = .ok loaded ∧
      loaded.entries.lookup "late" = some (declared "late" 0xffffffffffffffff []).2 ∧
      loaded.entries.lookup "faulty" = none ∧ loaded.save = mixed.save := by
  have hstorable : Storable mixed := by
    refine ⟨by decide, by decide, fun pair hpair => ?_⟩
    have hall : ∀ pair ∈ mixed.entries, Decoding.dangling? pair.2.function = none ∧
        pair.2.function.tags = [] := by decide
    refine ⟨inRange_of_dangling? (hall pair hpair).1, ?_⟩
    rw [TagsOrdered, (hall pair hpair).2]
    exact List.Pairwise.nil
  have hfits : FitsModule mixed.toModule := by
    rw [Cache.toModule, saved_mixed]
    decide
  obtain ⟨loaded, hload, -, hlookup, hsave⟩ := saved_caches_are_loaded hstorable hfits
  refine ⟨hstorable, hfits, loaded, hload, ?_, ?_, hsave⟩
  · exact (hlookup "late").trans rfl
  · exact (hlookup "faulty").trans rfl

end SsaLowering.Proofs
