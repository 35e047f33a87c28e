import SsaLowering.Proofs.ModuleRuns
import Mathlib.Order.Lattice
import Mathlib.Order.Nat

/-!
# The budget for reports

A budget does not change how items are lowered. It can only cut the passing on of their reports
short, at the first item behind which so many have been passed on. An item that ends the run anyway
does so whatever the budget is, unless the run was cut short before it.
-/

namespace SsaLowering.Proofs

open Ir Lowering Compilation List
open Source (Program LoadedItem)

def reportsOf (entry : Option CacheEntry) : List Report :=
  (entry.map CacheEntry.reports).getD []

/-- Whether an item ends the run: it is a global that has no constant value. -/
def isFatal (item : LoadedItem) : Bool :=
  match item.kind with
  | .global _ _ (some init) => !(constantOf init).toBool
  | _ => false

/-- How many reports there are behind each item, up to the first that ends the run; `before` are
those in front of the first. -/
def boundaries (before : Nat) : List (LoadedItem × ItemOutcome) → List Nat
  | [] => []
  | (item, outcome) :: rest =>
    match outcome.result with
    | .error _ => []
    | .ok entry =>
      if isFatal item then []
      else
        let behind := before + (reportsOf entry).length
        behind :: boundaries behind rest

section Gather

variable {env : Environment} {opts options' : Options} {cache : Option Cache}
  {module : Ir.Module} {reports : List Report} {item : LoadedItem} {limit : Nat}

/-! ### Lowering the items -/

lemma lowerFresh_congr (h : opts.verify = options'.verify) (body : Core.Body) (stamp : Stamp) :
    lowerFresh env opts body stamp = lowerFresh env options' body stamp := by
  have hcheck (function : Function) :
      checkFunction env opts function = checkFunction env options' function := by
    rw [checkFunction, checkFunction, h]
  simp only [lowerFresh, hcheck]

lemma lowerItems_congr (h : opts.verify = options'.verify) (items : List LoadedItem) :
    lowerItems env opts cache items = lowerItems env options' cache items := by
  have hitem (cache : Option Cache) (item : LoadedItem) :
      lowerItem env opts cache item = lowerItem env options' cache item := by
    simp only [lowerItem, lowerFresh_congr h]
  induction items generalizing cache with
  | nil => rfl
  | cons item rest ih => simp only [lowerItems, hitem, ih]

/-! ### Gathering the reports -/

lemma addItem_isOk_iff (env : Environment) (module : Ir.Module) (item : LoadedItem)
    (entry : Option CacheEntry) :
    (∃ next, addItem env module item entry = .ok next) ↔ isFatal item = false := by
  unfold addItem isFatal
  generalize item.kind = kind
  cases kind with
  | function params ret block => cases entry <;> simp
  | global ty held init =>
    cases init with
    | none => exact ⟨fun _ => rfl, fun _ => ⟨_, rfl⟩⟩
    | some init => cases hvalue : constantOf init <;> simp [hvalue, Except.toBool]

lemma le_of_mem_boundaries {n : Nat} : ∀ {before : Nat} {pairs : List (LoadedItem × ItemOutcome)},
    n ∈ boundaries before pairs → before ≤ n
  | before, (item, outcome) :: rest, h => by
    rw [boundaries] at h
    split at h
    · cases h
    · split at h
      · cases h
      · rcases mem_cons.mp h with rfl | h
        · exact Nat.le_add_right ..
        · exact (Nat.le_add_right ..).trans (le_of_mem_boundaries h)

/-- Reports that were passed on come first in the end. -/
lemma gather_prefix (env : Environment) (opts : Options) (module : Ir.Module) (reports : List Report)
    (pairs : List (LoadedItem × ItemOutcome)) :
    reports <+: (gather env opts module reports pairs).2.1 := by
  induction pairs generalizing module reports with
  | nil => exact List.prefix_rfl
  | cons pair rest ih =>
    rw [gather]
    split
    · exact List.prefix_rfl
    · next entry _ =>
      dsimp only
      split
      · exact List.prefix_append ..
      · split
        · exact List.prefix_append ..
        · exact (List.prefix_append ..).trans (ih _ _)

/-- A run with a budget goes as the one without it up to the first boundary that uses it up. -/
structure Truncated (limit : Nat) (counts : List Nat)
    (full cut : Except LowerError Ir.Module × List Report × List Compilation.Event) : Prop where
  within : (∀ n ∈ counts, n < max limit 1) → cut.1 = full.1 ∧ cut.2.1 = full.2.1
  beyond : (∃ n ∈ counts, max limit 1 ≤ n) → ∃ n ∈ counts, max limit 1 ≤ n ∧
    (∀ m ∈ counts, max limit 1 ≤ m → n ≤ m) ∧ cut.1 = .error (.aborted n) ∧ cut.2.1.length = n ∧
    cut.2.1 <+: full.2.1

lemma exceeds_iff {n : Nat} : exceeds (some limit) n = true ↔ max limit 1 ≤ n := by
  simp [exceeds, Nat.succ_le_iff, and_comm]

section Step

variable {outcome : ItemOutcome} {entry : Option CacheEntry} {rest : List (LoadedItem × ItemOutcome)}
  (hresult : outcome.result = .ok entry)
  (hfound : (entry.isSome && exceeds opts.maxReports (reports ++ reportsOf entry).length) = false)

include hresult hfound

lemma gather_of_ok {next : Ir.Module} (hnext : addItem env module item entry = .ok next) :
    gather env opts module reports ((item, outcome) :: rest) =
      gather env opts next (reports ++ reportsOf entry) rest := by
  rw [reportsOf] at hfound ⊢
  simp only [gather, hresult, hfound, hnext, Bool.false_eq_true, if_false]

lemma gather_of_error {error : InternalError} (hnext : addItem env module item entry = .error error) :
    gather env opts module reports ((item, outcome) :: rest) =
      (.error (.internal error), reports ++ reportsOf entry, []) := by
  rw [reportsOf] at hfound ⊢
  simp only [gather, hresult, hfound, hnext, Bool.false_eq_true, if_false]

end Step

lemma gather_truncated (env : Environment) (opts : Options) (module : Ir.Module)
    (pairs : List (LoadedItem × ItemOutcome))
    (hbodies : ∀ pair ∈ pairs, ∀ entry, pair.2.result = .ok (some entry) → isFatal pair.1 = false)
    (hreports : reports.length < max limit 1) : Truncated limit (boundaries reports.length pairs)
      (gather env { opts with maxReports := none } module reports pairs)
      (gather env { opts with maxReports := some limit } module reports pairs) := by
  induction pairs generalizing module reports with
  | nil => exact ⟨fun _ => ⟨rfl, rfl⟩, by simp [boundaries]⟩
  | cons pair rest ih =>
    obtain ⟨item, outcome⟩ := pair
    obtain ⟨hbody, hrest⟩ := forall_mem_cons.mp hbodies
    rw [boundaries]
    cases hresult : outcome.result with
    | error error =>
      simp only [gather, hresult]
      exact ⟨fun _ => ⟨rfl, rfl⟩, by simp⟩
    | ok entry =>
      have hfull : (entry.isSome && exceeds none (reports ++ reportsOf entry).length) = false :=
        Bool.and_false _
      dsimp only
      rw [← length_append]
      by_cases hover : max limit 1 ≤ (reports ++ reportsOf entry).length
      · -- an item without a body brings no reports, so this one has a body
        obtain ⟨held, rfl⟩ : ∃ held, entry = some held := by
          cases entry with
          | some held => exact ⟨held, rfl⟩
          | none =>
            rw [reportsOf, Option.map_none, Option.getD_none, append_nil] at hover
            exact absurd hreports (Nat.not_lt.mpr hover)
        have hfatal := hbody held hresult
        obtain ⟨next, hnext⟩ := (addItem_isOk_iff env module item (some held)).mpr hfatal
        have hcut : gather env { opts with maxReports := some limit } module reports
            ((item, outcome) :: rest) = (.error (.aborted (reports ++ reportsOf (some held)).length),
              reports ++ reportsOf (some held),
              [.budgetExhausted (reports ++ reportsOf (some held)).length]) := by
          have hfound := exceeds_iff.mpr hover
          rw [reportsOf] at hfound ⊢
          simp only [gather, hresult, hfound, Option.isSome_some, Bool.true_and, if_true]
        rw [hcut, hfatal, if_neg Bool.false_ne_true, gather_of_ok hresult hfull hnext]
        refine ⟨fun hwithin => absurd hover (Nat.not_le.mpr (hwithin _ mem_cons_self)), fun _ => ?_⟩
        refine ⟨_, mem_cons_self, hover, fun m hm _ => ?_, rfl, rfl, gather_prefix ..⟩
        rcases mem_cons.mp hm with rfl | hm
        · exact le_rfl
        · exact le_of_mem_boundaries hm
      · have hcut : (entry.isSome && exceeds (some limit) (reports ++ reportsOf entry).length) = false := by
          rw [Bool.eq_false_of_not_eq_true (exceeds_iff.not.mpr hover), Bool.and_false]
        cases hnext : addItem env module item entry with
        | error error =>
          have hfatal : isFatal item = true := by
            by_contra hfatal
            obtain ⟨next, hok⟩ := (addItem_isOk_iff env module item entry).mpr
              (Bool.eq_false_of_not_eq_true hfatal)
            rw [hnext] at hok
            cases hok
          rw [if_pos hfatal, gather_of_error hresult hfull hnext, gather_of_error hresult hcut hnext]
          exact ⟨fun _ => ⟨rfl, rfl⟩, by simp⟩
        | ok next =>
          rw [(addItem_isOk_iff ..).mp ⟨next, hnext⟩, if_neg Bool.false_ne_true,
            gather_of_ok hresult hfull hnext, gather_of_ok hresult hcut hnext]
          obtain ⟨hwithin, hbeyond⟩ := @ih (reports ++ reportsOf entry) next hrest (Nat.lt_of_not_le hover)
          refine ⟨fun hall => hwithin fun n hn => hall n (mem_cons_of_mem _ hn), ?_⟩
          rintro ⟨n, hn, hle⟩
          have hne {m : Nat} (hm : max limit 1 ≤ m) : m ≠ (reports ++ reportsOf entry).length :=
            fun heq => hover (heq ▸ hm)
          obtain ⟨m, hm, hle', hleast, hcut⟩ :=
            hbeyond ⟨n, (mem_cons.mp hn).resolve_left (hne hle), hle⟩
          refine ⟨m, mem_cons_of_mem _ hm, hle', fun k hk hlimit => ?_, hcut⟩
          exact hleast k ((mem_cons.mp hk).resolve_left (hne hlimit)) hlimit

lemma lowerItem_isFatal {entry : CacheEntry}
    (h : (lowerItem env opts cache item).1.result = .ok (some entry)) : isFatal item = false := by
  cases hkind : item.kind with
  | function params ret block => simp [isFatal, hkind]
  | global ty held init =>
    have htask : taskOf env item = .settled (.ok none) := by
      simp [taskOf, Core.desugar, hkind, pure, Except.pure]
    rw [lowerItem, htask] at h
    cases h

lemma lowerItems_bodies (env : Environment) (opts : Options) (cache : Option Cache)
    (items : List LoadedItem) :
    ∀ pair ∈ items.zip (lowerItems env opts cache items).1, ∀ entry,
      pair.2.result = .ok (some entry) → isFatal pair.1 = false := by
  induction items generalizing cache with
  | nil => simp
  | cons item rest ih =>
    simp only [lowerItems, zip_cons_cons, forall_mem_cons]
    exact ⟨fun entry => lowerItem_isFatal, ih _⟩

end Gather

def outcomesOf (digest : Digest) (prog : Program) (opts : Options) (cache : Option Cache) :
    List (LoadedItem × ItemOutcome) :=
  prog.items.zip (lowerItems (.ofProgram digest prog) opts cache prog.items).1

/-- What is gathered from the outcomes of the items, under some budget of reports. -/
def gathered (digest : Digest) (prog : Program) (opts : Options) (cache : Option Cache)
    (maxReports : Option Nat) : Except LowerError Ir.Module × List Report × List Compilation.Event :=
  gather (.ofProgram digest prog) { opts with maxReports }
    { name := prog.name, types := (Environment.ofProgram digest prog).layouts } []
    (outcomesOf digest prog opts cache)

lemma lowerModule_gathered (digest : Digest) (prog : Program) (opts : Options)
    (cache : Option Cache) (maxReports : Option Nat) :
    (lowerModule digest prog { opts with maxReports } cache).result =
        (gathered digest prog opts cache maxReports).1 ∧
      (lowerModule digest prog { opts with maxReports } cache).reports =
        (gathered digest prog opts cache maxReports).2.1 ∧
      (lowerModule digest prog { opts with maxReports } cache).cache =
        (lowerItems (.ofProgram digest prog) opts cache prog.items).2 := by
  have hitems : lowerItems (.ofProgram digest prog) { opts with maxReports } cache prog.items =
      lowerItems (.ofProgram digest prog) opts cache prog.items :=
    @lowerItems_congr _ { opts with maxReports } opts _ rfl _
  rw [lowerModule, hitems]
  exact ⟨rfl, rfl, rfl⟩

/-- With a budget, a module is lowered as without one, unless there are as many reports behind an
item before the first that ends the run. Then the run is aborted behind the first such item, and the
reports up to there have been passed on. Without reports this does not happen. -/
theorem budget_only_truncates (digest : Digest) (program : Program) (options : Options)
    (cache : Option Cache) (limit : Nat) :
    let full := lowerModule digest program { options with maxReports := none } cache
    let cut := lowerModule digest program { options with maxReports := some limit } cache
    let used := (boundaries 0 (outcomesOf digest program options cache)).filter (max limit 1 ≤ ·)
    cut.cache = full.cache ∧
      (used = [] → cut.result = full.result ∧ cut.reports = full.reports) ∧
      (used ≠ [] → ∃ n ∈ used, (∀ m ∈ used, n ≤ m) ∧ cut.result = .error (.aborted n) ∧
        n ≤ full.reports.length ∧ cut.reports = full.reports.take n) ∧
      (full.reports = [] → used = []) := by
  intro full cut used
  have htruncated : Truncated limit (boundaries 0 (outcomesOf digest program options cache))
      (gathered digest program options cache none)
      (gathered digest program options cache (some limit)) :=
    gather_truncated _ options _ _ (lowerItems_bodies _ options cache program.items)
      (show ([] : List Report).length < max limit 1 by simp)
  obtain ⟨hwithin, hbeyond⟩ := htruncated
  obtain ⟨hresult, hreports, hcache⟩ := lowerModule_gathered digest program options cache none
  obtain ⟨hresult', hreports', hcache'⟩ :=
    lowerModule_gathered digest program options cache (some limit)
  rw [← hresult, ← hreports, ← hresult', ← hreports'] at hwithin
  rw [← hreports, ← hresult', ← hreports'] at hbeyond
  have hmem (n : Nat) : n ∈ used ↔
      n ∈ boundaries 0 (outcomesOf digest program options cache) ∧ max limit 1 ≤ n := by
    simp [used]
  have haborted (hused : used ≠ []) : ∃ n ∈ used, (∀ m ∈ used, n ≤ m) ∧
      cut.result = .error (.aborted n) ∧ n ≤ full.reports.length ∧ cut.reports = full.reports.take n := by
    obtain ⟨m, hm⟩ := exists_mem_of_ne_nil _ hused
    obtain ⟨n, hn, hle, hleast, hresult, hlength, hcut⟩ := hbeyond ⟨m, (hmem m).mp hm⟩
    refine ⟨n, (hmem n).mpr ⟨hn, hle⟩, fun k hk => hleast k ((hmem k).mp hk).1 ((hmem k).mp hk).2, hresult,
      hlength ▸ hcut.length_le, hlength ▸ List.prefix_iff_eq_take.mp hcut⟩
  refine ⟨hcache'.trans hcache.symm, fun hused => hwithin fun n hn => ?_, haborted, fun hnone => ?_⟩
  · by_contra hover
    have := (hmem n).mpr ⟨hn, Nat.le_of_not_lt hover⟩
    rw [hused] at this
    cases this
  · by_contra hused
    obtain ⟨n, hn, -, -, hle, -⟩ := haborted hused
    have hpos := (Nat.le_max_right limit 1).trans ((hmem n).mp hn).2
    rw [hnone] at hle
    exact absurd (hpos.trans hle) (by simp)

end SsaLowering.Proofs
