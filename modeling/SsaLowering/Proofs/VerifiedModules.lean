import SsaLowering.Proofs.CacheTransparency

/-!
# What verification is worth with a cache

A function is verified when it is made, and not again when it is found in a cache. So lowering with
verification gives verified modules as long as the cache was filled with verification, or from
programs whose functions are accepted anyway. A function that was made without it and is malformed
comes out of the cache unnoticed.
-/

namespace SsaLowering.Proofs

open Ir Lowering Compilation List
open Source (Program LoadedItem Tree TypeTable)
open SsaLowering.Core (Body fingerprint desugar)

variable {digest : Digest} {env : Environment} {opts : Options} {body : Body} {entry : CacheEntry}

/-- The cache after some lowerings that share it, the first of which finds it empty. -/
def cacheAfter (digest : Digest) (calls : List (Program × Options)) : Cache :=
  calls.foldl (fun cache call => (lowerModule digest call.1 call.2 (some cache)).cache.getD {}) {}

/-- Whatever a program is lowered to is accepted, also where nobody asks. -/
def AlwaysAccepted (digest : Digest) (prog : Program) : Prop :=
  ∀ body stamp entry, BodyOf prog body →
    (lowerFresh (.ofProgram digest prog) { verify := false } body stamp).1 = .ok entry →
    entry.function.verify (Environment.ofProgram digest prog).layouts = .ok (.ok ())

/-- An entry was made from a body of one of some programs, and is accepted there. -/
def AcceptedFrom (digest : Digest) (programs : Program → Prop) (name : String) (entry : CacheEntry) :
    Prop :=
  ∃ prog body, programs prog ∧ BodyOf prog body ∧ body.name = name ∧
    entry.stamp = body.stamp digest (fingerprint digest prog) ∧
    entry.function.verify (Environment.ofProgram digest prog).layouts = .ok (.ok ())

lemma checkFunction_eq_ok {function : Function} (hverify : opts.verify = true)
    (h : checkFunction env opts function = .ok ()) :
    function.verify env.layouts = .ok (.ok ()) := by
  rw [checkFunction, if_pos hverify] at h
  split at h
  · cases h
  · cases h
  · assumption

lemma lowerFresh_eq_ok {stamp : Stamp} (h : (lowerFresh env opts body stamp).1 = .ok entry) :
    ∃ slotForm stats, (lowerBody env body).function = .ok slotForm ∧
      Ssa.construct slotForm = .ok (stats, entry.function) ∧
      checkFunction env opts entry.function = .ok () := by
  unfold lowerFresh at h
  dsimp only at h
  split at h
  · cases h
  · next slotForm hlowered =>
    split at h
    · cases h
    · next stats function hconstruct =>
      obtain ⟨_, hcheck, hentry⟩ := bind_eq_ok_iff.mp h
      obtain rfl := Except.ok.inj hentry
      exact ⟨slotForm, stats, hlowered, hconstruct, hcheck⟩

lemma lowerFresh_accepted {stamp : Stamp} (hverify : opts.verify = true)
    (h : (lowerFresh env opts body stamp).1 = .ok entry) :
    entry.function.verify env.layouts = .ok (.ok ()) := by
  obtain ⟨-, -, -, -, hcheck⟩ := lowerFresh_eq_ok h
  exact checkFunction_eq_ok hverify hcheck

section

variable {programs : Program → Prop} {prog : Program}

lemma acceptedFrom_fresh (hprogram : programs prog)
    (hoptions : opts.verify = true ∨ AlwaysAccepted digest prog) {item : LoadedItem}
    (hitem : item ∈ prog.items) :
    FreshHas (AcceptedFrom digest programs) (.ofProgram digest prog) opts item := by
  intro body stamp entry htask hfresh
  obtain ⟨hbody, rfl⟩ := taskOf_pending hitem htask
  refine ⟨prog, body, hprogram, hbody, rfl, lowerFresh_stamp hfresh, ?_⟩
  cases hverify : opts.verify with
  | true => exact lowerFresh_accepted hverify hfresh
  | false =>
    rcases hoptions with htrue | haccepted
    · cases hverify.symm.trans htrue
    · rw [lowerFresh_options hverify] at hfresh
      exact haccepted body _ entry hbody hfresh

/-- Every entry of a cache that was filled so is accepted where it was made. -/
lemma cacheAfter_holding {calls : List (Program × Options)}
    (hcalls : ∀ call ∈ calls,
      programs call.1 ∧ (call.2.verify = true ∨ AlwaysAccepted digest call.1)) :
    Holding (AcceptedFrom digest programs) (cacheAfter digest calls) := by
  have hfold : ∀ (calls : List (Program × Options)) (cache : Cache),
      (∀ call ∈ calls, programs call.1 ∧ (call.2.verify = true ∨ AlwaysAccepted digest call.1)) →
      Holding (AcceptedFrom digest programs) cache →
      Holding (AcceptedFrom digest programs) (calls.foldl
        (fun cache call => (lowerModule digest call.1 call.2 (some cache)).cache.getD {}) cache) := by
    intro calls
    induction calls with
    | nil => exact fun _ _ hcache => hcache
    | cons call calls ih =>
      intro cache hcalls hcache
      refine ih _ (fun other hother => hcalls other (mem_cons_of_mem _ hother)) ?_
      obtain ⟨hprogram, hoptions⟩ := hcalls call mem_cons_self
      have hnext : ∀ c ∈ (lowerModule digest call.1 call.2 (some cache)).cache,
          Holding (AcceptedFrom digest programs) c :=
        lowerModule_holding (by simpa using hcache) fun item hitem =>
          acceptedFrom_fresh hprogram hoptions hitem
      dsimp only
      cases hcase : (lowerModule digest call.1 call.2 (some cache)).cache with
      | none => exact holding_empty
      | some next => exact hnext next hcase
  exact hfold calls {} hcalls holding_empty

variable (hregular : ∀ p, programs p → Regular p.types) (hdigest : Collisionless digest programs)
include hregular hdigest

lemma AcceptedFrom.verify_eq {name : String} (h : AcceptedFrom digest programs name entry)
    (hprogram : programs prog) (hbody : BodyOf prog body)
    (hstamp : entry.stamp = body.stamp digest (fingerprint digest prog)) :
    entry.function.verify (Environment.ofProgram digest prog).layouts = .ok (.ok ()) := by
  obtain ⟨program', body', hprogram', hbody', -, hstamp', haccepted⟩ := h
  have hatoms := hdigest.stamps prog program' body body' hprogram hprogram' hbody hbody'
    (hstamp.symm.trans hstamp')
  have hfingerprint := number_inj.mp (List.cons.inj hatoms).1
  rw [ofProgram_eq_of_atoms (hregular prog hprogram) (hregular program' hprogram')
    (hdigest.fingerprints prog program' hprogram hprogram' hfingerprint)]
  exact haccepted

/-- With verification every item comes to an accepted function, made or found. -/
lemma lowerItem_accepted {cache : Option Cache} {item : LoadedItem}
    (hcache : ∀ c ∈ cache, Holding (AcceptedFrom digest programs) c) (hprogram : programs prog)
    (hverify : opts.verify = true) (hitem : item ∈ prog.items)
    (h : (lowerItem (.ofProgram digest prog) opts cache item).1.result = .ok (some entry)) :
    entry.function.verify (Environment.ofProgram digest prog).layouts = .ok (.ok ()) := by
  cases htask : taskOf (.ofProgram digest prog) item with
  | settled result =>
    rw [lowerItem_settled htask] at h
    exact absurd h (taskOf_settled htask entry)
  | pending body stamp =>
    obtain ⟨hbody, hstamp⟩ := taskOf_pending hitem htask
    have htreated : Treated (.ofProgram digest prog) opts body stamp cache
        (lowerItem (.ofProgram digest prog) opts cache item) := lowerItem_treated htask
    cases htreated with
    | found c held hc hfind hresult _ =>
      obtain rfl := Option.some.inj (Except.ok.inj (hresult.symm.trans h))
      obtain ⟨hmem, hfound⟩ := mem_of_find? hfind
      exact (hcache c hc _ hmem).verify_eq hregular hdigest hprogram hbody (hfound.trans hstamp)
    | failed error _ hresult _ => cases hresult.symm.trans h
    | made made hfresh hresult _ =>
      obtain rfl := Option.some.inj (Except.ok.inj (hresult.symm.trans h))
      exact lowerFresh_accepted hverify hfresh

lemma lowerItems_accepted {cache : Option Cache} {items : List LoadedItem}
    (hcache : ∀ c ∈ cache, Holding (AcceptedFrom digest programs) c) (hprogram : programs prog)
    (hverify : opts.verify = true) (hitems : ∀ item ∈ items, item ∈ prog.items) :
    ∀ outcome ∈ (lowerItems (.ofProgram digest prog) opts cache items).1, ∀ entry,
      outcome.result = .ok (some entry) →
      entry.function.verify (Environment.ofProgram digest prog).layouts = .ok (.ok ()) := by
  induction items generalizing cache with
  | nil =>
    intro outcome houtcome
    cases houtcome
  | cons item rest ih =>
    have hitem := hitems item mem_cons_self
    have hnext := (lowerItem_holding hcache
      (acceptedFrom_fresh hprogram (.inl hverify) hitem)).2
    intro outcome houtcome entry hentry
    rcases mem_cons.mp houtcome with rfl | hmem
    · exact lowerItem_accepted hregular hdigest hcache hprogram hverify hitem hentry
    · exact ih hnext (fun other hother => hitems other (mem_cons_of_mem _ hother))
        outcome hmem entry hentry

end

/-- Lowering with verification and a cache gives a module all of whose functions are accepted, if
every lowering that the cache saw before was with verification, or of a program whose functions are
accepted anyway. The digests have to tell the contents of these programs apart. -/
theorem verified_modules_are_accepted (digest : Digest) (calls : List (Program × Options))
    (program : Program) (options : Options)
    (hloaded : ∀ p ∈ program :: calls.map Prod.fst, ∃ tree : Tree, tree.load = .ok p)
    (hdigest : Collisionless digest (· ∈ program :: calls.map Prod.fst))
    (hcalls : ∀ call ∈ calls, call.2.verify = true ∨ AlwaysAccepted digest call.1)
    (hverify : options.verify = true) {module : Ir.Module}
    (h : (lowerModule digest program options (some (cacheAfter digest calls))).result = .ok module) :
    ∀ f ∈ module.functions.toList, f.isDeclaration = false →
      f.verify module.types = .ok (.ok ()) := by
  have hregular : ∀ p, p ∈ program :: calls.map Prod.fst → Regular p.types := by
    intro p hp
    obtain ⟨tree, hload⟩ := hloaded p hp
    exact load_regular hload
  have hcache : ∀ c ∈ some (cacheAfter digest calls),
      Holding (AcceptedFrom digest (· ∈ program :: calls.map Prod.fst)) c := by
    rintro c hc
    obtain rfl := Option.mem_some.mp hc
    exact cacheAfter_holding fun call hcall =>
      ⟨mem_cons_of_mem _ (mem_map_of_mem hcall), hcalls call hcall⟩
  have hitems := lowerItems_accepted hregular hdigest hcache mem_cons_self hverify
    fun item hitem => hitem
  obtain ⟨htypes, hfunctions⟩ := gather_functions (Q := fun f => f.isDeclaration = false →
      f.verify (Environment.ofProgram digest program).layouts = .ok (.ok ())) h (by simp)
    (fun pair hpair e he _ => hitems pair.2 (of_mem_zip hpair).2 e he)
    (fun name tys ret span node hbody => by cases hbody)
  intro f hf hbody
  rw [htypes]
  exact hfunctions f hf hbody

/-- What the verifier says of the function that an item is lowered to without it. -/
def verdictOn (digest : Digest) (prog : Program) (item : LoadedItem) :
    Option (Except Fault (Except Malformation Unit)) :=
  match desugar prog.types item with
  | .ok (some body) =>
    match (lowerBody (.ofProgram digest prog) body).function with
    | .ok slotForm =>
      match Ssa.construct slotForm with
      | .ok (_, function) => some (function.verify (Environment.ofProgram digest prog).layouts)
      | .error _ => none
    | .error _ => none
  | _ => none

lemma double_alwaysAccepted : AlwaysAccepted .fnv double := by
  rintro body stamp entry ⟨item, hitem, hdesugar⟩ hfresh
  obtain rfl := mem_singleton.mp hitem
  have hverdict : verdictOn .fnv double doubleItem = some (.ok (.ok ())) := by decide +kernel
  obtain ⟨slotForm, stats, hlowered, hconstruct, -⟩ := lowerFresh_eq_ok hfresh
  simpa only [verdictOn, hdesugar, hlowered, hconstruct, Option.some.injEq] using hverdict

/-- The program is lowered without verification and then with it. -/
def doubleCalls : List (Program × Options) :=
  [(double, { verify := false }), (double, { maxReports := some 0 })]

theorem double_is_accepted :
    (∀ p ∈ double :: doubleCalls.map Prod.fst, ∃ tree : Tree, tree.load = .ok p) ∧
    Collisionless .fnv (· ∈ double :: doubleCalls.map Prod.fst) ∧
    (∀ call ∈ doubleCalls, call.2.verify = true ∨ AlwaysAccepted .fnv call.1) ∧
    ∃ module, (lowerModule .fnv double {} (some (cacheAfter .fnv doubleCalls))).result = .ok module ∧
      ∀ f ∈ module.functions.toList, f.isDeclaration = false →
        f.verify module.types = .ok (.ok ()) := by
  have hall : ∀ p ∈ double :: doubleCalls.map Prod.fst, p = double := by
    simp [doubleCalls]
  have hloaded : ∀ p ∈ double :: doubleCalls.map Prod.fst, ∃ tree : Tree, tree.load = .ok p :=
    fun p hp => ⟨doubleTree, hall p hp ▸ double_loads⟩
  have hdigest : Collisionless .fnv (· ∈ double :: doubleCalls.map Prod.fst) :=
    collisionless_of_double hall
  have hcalls : ∀ call ∈ doubleCalls, call.2.verify = true ∨ AlwaysAccepted .fnv call.1 := by
    intro call hcall
    have hprogram := hall call.1 (mem_cons_of_mem _ (mem_map_of_mem hcall))
    exact .inr (hprogram ▸ double_alwaysAccepted)
  have hlowers :
      (lowerModule .fnv double {} (some (cacheAfter .fnv doubleCalls))).result.toBool = true := by
    decide +kernel
  cases hresult : (lowerModule .fnv double {} (some (cacheAfter .fnv doubleCalls))).result with
  | error error =>
    rw [hresult] at hlowers
    cases hlowers
  | ok module =>
    exact ⟨hloaded, hdigest, hcalls, module, rfl,
      verified_modules_are_accepted .fnv doubleCalls double {} hloaded hdigest hcalls rfl hresult⟩

/-- A module with one function, which is to give a number and gives a truth value. -/
def mistypedTree : Tree :=
  { name := "mistyped"
    datas := []
    items := [⟨(), none, "f", .function [] .int
      (some ⟨(), none, [], some ⟨(), none, .bool, .literal (.bool true)⟩⟩)⟩] }

def mistyped : Program :=
  { name := "mistyped"
    types := .initial
    items := [⟨2, .zero, "f", .function [] TypeTable.int
      (some ⟨1, .zero, [], some ⟨0, .zero, TypeTable.bool, .literal (.bool true)⟩⟩)⟩] }

/-- The bodies that the verifier does not accept. -/
def rejected (module : Ir.Module) : List Function :=
  module.functions.toList.filter fun f =>
    !f.isDeclaration && decide (f.verify module.types ≠ .ok (.ok ()))

/-- Once it has been lowered without verification, lowering it with verification succeeds, with a
function that the verifier rejects. -/
theorem mistyped_gets_out :
    mistypedTree.load = .ok mistyped ∧
    ∃ module, (lowerModule .fnv mistyped { verify := true }
        (some (cacheAfter .fnv [(mistyped, { verify := false })]))).result = .ok module ∧
      ∃ f ∈ module.functions.toList, f.isDeclaration = false ∧
        f.verify module.types ≠ .ok (.ok ()) := by
  refine ⟨rfl, ?_⟩
  have hrejects : (lowerModule .fnv mistyped { verify := true }
      (some (cacheAfter .fnv [(mistyped, { verify := false })]))).result.toOption.map
        (fun module => (rejected module).length) = some 1 := by
    decide +kernel
  cases hresult : (lowerModule .fnv mistyped { verify := true }
      (some (cacheAfter .fnv [(mistyped, { verify := false })]))).result with
  | error error =>
    rw [hresult] at hrejects
    cases hrejects
  | ok module =>
    rw [hresult] at hrejects
    have hlength : (rejected module).length = 1 := Option.some.inj hrejects
    obtain ⟨f, hf⟩ := exists_mem_of_length_pos (hlength ▸ Nat.one_pos)
    obtain ⟨hmem, hbad⟩ := mem_filter.mp hf
    simp only [Bool.and_eq_true, Bool.not_eq_true', decide_eq_true_eq] at hbad
    exact ⟨module, rfl, f, hmem, hbad⟩

end SsaLowering.Proofs
