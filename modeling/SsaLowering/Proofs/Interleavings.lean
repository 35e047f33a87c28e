import SsaLowering.Proofs.CacheTransparency

/-!
# Lowering items side by side

The items of a program can be lowered by any number of workers that share one cache. Each item has a
pipeline of atomic steps: it asks the cache once and, if its entry was not found and could be made,
stores it. However the steps of the pipelines follow each other, an item is only ever concerned with
the entry of its own name, which no other item touches. So what becomes of an item can be told from
the cache at the start, and so can what becomes of the cache.
-/

namespace SsaLowering.Proofs

open Ir Lowering Compilation List
open Source (Program LoadedItem Tree)

variable {item : LoadedItem} {now' : Cache} {name : String}

/-! ### Pipelines -/

/-- Where the pipeline of an item stands. -/
inductive Pipeline where
  /-- Nothing has been done yet. -/
  | waiting (item : LoadedItem)
  /-- The entry of a name was not found; it has been made and is to be stored. -/
  | storing (name : String) (entry : CacheEntry) (events : List Compilation.Event)
  /-- Nothing more has to be done. -/
  | done (outcome : ItemOutcome)

/-- The next atomic step of a pipeline, on the cache that all of them share. -/
def Pipeline.step (env : Environment) (opts : Options) (cache : Option Cache) :
    Pipeline → Option (Pipeline × Option Cache)
  | waiting item =>
    match taskOf env item with
    | .settled result => some (done { result }, cache)
    | .pending body stamp =>
      match cache with
      | none =>
        let (result, events) := lowerFresh env opts body stamp
        some (done { result := result.map some, events }, none)
      | some cache =>
        match cache.get body.name stamp with
        | (some entry, cache) =>
          some (done { result := .ok (some entry), events := [.reused body.name] }, some cache)
        | (none, cache) =>
          match lowerFresh env opts body stamp with
          | (.error error, events) => some (done { result := .error error, events }, some cache)
          | (.ok entry, events) => some (storing body.name entry events, some cache)
  | storing name entry events =>
    match cache with
    | none => some (done { result := .ok (some entry), events }, none)
    | some cache =>
      let (held, cache) := cache.insert name entry
      some (done { result := .ok (some held), events }, some cache)
  | done _ => none

/-- The pipelines of the items, in the order of the items, and the cache that they share. -/
structure Shop where
  stages : List Pipeline
  cache : Option Cache

/-- Any one of the pipelines takes its next step. -/
inductive Shop.Step (env : Environment) (opts : Options) : Shop → Shop → Prop where
  | mk (before after : List Pipeline) {stage stage' : Pipeline} {cache cache' : Option Cache}
      (h : stage.step env opts cache = some (stage', cache')) :
      Step env opts ⟨before ++ stage :: after, cache⟩ ⟨before ++ stage' :: after, cache'⟩

/-- Steps of the pipelines in some order. -/
abbrev Shop.Run (env : Environment) (opts : Options) : Shop → Shop → Prop :=
  Relation.ReflTransGen (Shop.Step env opts)

def Shop.start (items : List LoadedItem) (cache : Option Cache) : Shop :=
  ⟨items.map .waiting, cache⟩

def Shop.finished (outcomes : List ItemOutcome) (cache : Option Cache) : Shop :=
  ⟨outcomes.map .done, cache⟩

section Runs

variable {env : Environment} {opts : Options}

/-- The steps of one pipeline, without another one in between, are those of lowering its item. -/
lemma lowerItem_eq_steps (env : Environment) (opts : Options) (cache : Option Cache)
    (item : LoadedItem) :
    (Pipeline.waiting item).step env opts cache =
        some (.done (lowerItem env opts cache item).1, (lowerItem env opts cache item).2) ∨
      ∃ stage middle, (Pipeline.waiting item).step env opts cache = some (stage, middle) ∧
        stage.step env opts middle = some (.done (lowerItem env opts cache item).1,
          (lowerItem env opts cache item).2) := by
  rw [lowerItem, Pipeline.step]
  cases taskOf env item with
  | settled result => exact .inl rfl
  | pending body stamp =>
    cases cache with
    | none => exact .inl rfl
    | some cache =>
      dsimp only
      obtain ⟨found, counted⟩ := cache.get body.name stamp
      cases found with
      | some entry => exact .inl rfl
      | none =>
        obtain ⟨result, events⟩ := lowerFresh env opts body stamp
        cases result with
        | error error => exact .inl rfl
        | ok entry => exact .inr ⟨_, _, rfl, rfl⟩

lemma run_item (before after : List Pipeline) (cache : Option Cache) (item : LoadedItem) :
    Shop.Run env opts ⟨before ++ .waiting item :: after, cache⟩
      ⟨before ++ .done (lowerItem env opts cache item).1 :: after,
        (lowerItem env opts cache item).2⟩ := by
  rcases lowerItem_eq_steps env opts cache item with h | ⟨stage, middle, hask, hstore⟩
  · exact .single (.mk before after h)
  · exact .tail (.single (.mk before after hask)) (.mk before after hstore)

lemma run_lowerItems (before : List Pipeline) (cache : Option Cache) (items : List LoadedItem) :
    Shop.Run env opts ⟨before ++ items.map .waiting, cache⟩
      ⟨before ++ (lowerItems env opts cache items).1.map .done,
        (lowerItems env opts cache items).2⟩ := by
  induction items generalizing before cache with
  | nil => exact .refl
  | cons item rest ih =>
    refine (run_item before (rest.map .waiting) cache item).trans ?_
    have hrest := ih (before ++ [.done (lowerItem env opts cache item).1])
      (lowerItem env opts cache item).2
    rw [append_assoc, append_assoc] at hrest
    exact hrest

/-- Whatever steps have been taken, the pipelines can be brought to their ends. -/
lemma exists_run_finished (before after : List Pipeline) (cache : Option Cache) :
    ∃ (outcomes : List ItemOutcome) (cache' : Option Cache),
      Shop.Run env opts ⟨before ++ after, cache⟩
      ⟨before ++ outcomes.map .done, cache'⟩ := by
  induction after generalizing before cache with
  | nil => exact ⟨[], cache, .refl⟩
  | cons stage after ih =>
    obtain ⟨outcome, middle, hstage⟩ : ∃ outcome middle, Shop.Run env opts
        ⟨before ++ stage :: after, cache⟩ ⟨before ++ .done outcome :: after, middle⟩ := by
      cases stage with
      | waiting item => exact ⟨_, _, run_item before after cache item⟩
      | storing name entry events =>
        cases cache with
        | none => exact ⟨_, _, .single (.mk before after rfl)⟩
        | some cache => exact ⟨_, _, .single (.mk before after rfl)⟩
      | done outcome => exact ⟨outcome, cache, .refl⟩
    obtain ⟨outcomes, cache', hrest⟩ := ih (before ++ [.done outcome]) middle
    rw [append_assoc, append_assoc] at hrest
    exact ⟨outcome :: outcomes, cache', hstage.trans hrest⟩

end Runs

/-! ### Effects -/

/-- What a pipeline comes to: the outcome of its item, what the cache counts, and what is stored. -/
structure Effect where
  outcome : ItemOutcome
  hits : Nat := 0
  misses : Nat := 0
  stored : Option (String × CacheEntry) := none

/-- The effect of an item, told from the cache at the start. -/
def effectOf (env : Environment) (opts : Options) (start : Option Cache) (item : LoadedItem) :
    Effect :=
  match taskOf env item with
  | .settled result => { outcome := { result } }
  | .pending body stamp =>
    match start.bind (·.find? body.name stamp), lowerFresh env opts body stamp with
    | some entry, _ =>
      { outcome := { result := .ok (some entry), events := [.reused body.name] }, hits := 1 }
    | none, (.error error, events) =>
      { outcome := { result := .error error, events }, misses := 1 }
    | none, (.ok entry, events) =>
      { outcome := { result := .ok (some entry), events }, misses := 1
        stored := some (body.name, entry) }

/-- An item, its effect, and where its pipeline stands. -/
structure Lane where
  item : LoadedItem
  effect : Effect
  stage : Pipeline

namespace Lane

/-- The pipeline is on the way to the effect. -/
def OnTheWay (row : Lane) : Prop :=
  match row.stage with
  | .waiting item => item = row.item
  | .storing name entry events =>
    row.effect.stored = some (name, entry) ∧ row.effect.outcome = ⟨.ok (some entry), events⟩
  | .done outcome => outcome = row.effect.outcome

def hits (row : Lane) : Nat :=
  match row.stage with
  | .waiting _ => 0
  | _ => row.effect.hits

def misses (row : Lane) : Nat :=
  match row.stage with
  | .waiting _ => 0
  | _ => row.effect.misses

def stored (row : Lane) : Option (String × CacheEntry) :=
  match row.stage with
  | .done _ => row.effect.stored
  | _ => none

end Lane

/-- The content of a cache after some entries have been stored. -/
structure Overlaid (start now : Cache) (made : List (String × CacheEntry)) : Prop where
  held : ∀ pair ∈ made, now.entries.lookup pair.1 = some pair.2
  kept : ∀ name, name ∉ made.map Prod.fst → now.entries.lookup name = start.entries.lookup name
  size : now.size = start.size + made.countP fun pair => (start.entries.lookup pair.1).isNone

/-- The counts and the content of the cache are those of the steps that were taken. -/
inductive Accounted (rows : List Lane) : Option Cache → Option Cache → Prop where
  | absent : Accounted rows none none
  | present {start now : Cache} (hits : now.hits = start.hits + (rows.map Lane.hits).sum)
      (misses : now.misses = start.misses + (rows.map Lane.misses).sum)
      (overlaid : Overlaid start now (rows.filterMap Lane.stored)) :
      Accounted rows (some start) (some now)

lemma taskOf_name {env : Environment} {body : Core.Body} {stamp : Stamp}
    (h : taskOf env item = .pending body stamp) : body.name = item.name := by
  rw [taskOf] at h
  split at h
  · cases h
  · cases h
  · next hdesugar =>
    cases h
    rw [Core.desugar] at hdesugar
    split at hdesugar
    · obtain ⟨_, -, hbody⟩ := bind_eq_ok_iff.mp hdesugar
      cases hbody
      rfl
    · cases hdesugar

section Steps

variable {env : Environment} {opts : Options} {start now : Cache} {before after : List Lane}
  {row : Lane} {stage : Pipeline}

lemma effectOf_name {start : Option Cache} {pair : String × CacheEntry}
    (h : (effectOf env opts start item).stored = some pair) : pair.1 = item.name := by
  rw [effectOf] at h
  cases htask : taskOf env item with
  | settled result =>
    rw [htask] at h
    cases h
  | pending body stamp =>
    rw [htask] at h
    dsimp only at h
    split at h
    · cases h
    · cases h
    · cases h
      exact taskOf_name htask

lemma effectOf_new {pair : String × CacheEntry}
    (h : (effectOf env opts (some start) item).stored = some pair) :
    start.find? pair.1 pair.2.stamp = none := by
  rw [effectOf] at h
  cases htask : taskOf env item with
  | settled result =>
    rw [htask] at h
    cases h
  | pending body stamp =>
    rw [htask] at h
    dsimp only at h
    split at h
    · cases h
    · cases h
    · next hfind hfresh =>
      cases h
      have hstamp := lowerFresh_stamp (congrArg Prod.fst hfresh)
      rw [hstamp]
      exact hfind

/-- While a pipeline is on its way, nothing is stored under the name of its item. -/
lemma name_not_stored {start : Option Cache}
    (hnames : ((before ++ row :: after).map (·.item.name)).Nodup)
    (heffects : ∀ r ∈ before ++ row :: after, r.effect = effectOf env opts start r.item)
    (hstage : row.stored = none) :
    row.item.name ∉ ((before ++ row :: after).filterMap Lane.stored).map Prod.fst := by
  intro hmem
  obtain ⟨pair, hpair, hname⟩ := mem_map.mp hmem
  obtain ⟨other, hother, hstored⟩ := mem_filterMap.mp hpair
  have hdone : other.effect.stored = some pair := by
    unfold Lane.stored at hstored
    split at hstored
    · exact hstored
    · cases hstored
  rw [heffects other hother] at hdone
  have hsame : other = row := inj_on_of_nodup_map hnames hother
    (mem_append_right _ mem_cons_self) ((effectOf_name hdone).symm.trans hname)
  rw [hsame, hstage] at hstored
  cases hstored

/-- A pipeline takes a step that the cache counts, and stores what there is to store. -/
lemma Accounted.recount {row' : Lane}
    (h : Accounted (before ++ row :: after) (some start) (some now))
    (hhits : now'.hits + row.hits = now.hits + row'.hits)
    (hmisses : now'.misses + row.misses = now.misses + row'.misses)
    (hoverlaid : Overlaid start now ((before ++ row :: after).filterMap Lane.stored) →
      Overlaid start now' ((before ++ row' :: after).filterMap Lane.stored)) :
    Accounted (before ++ row' :: after) (some start) (some now') := by
  obtain - | ⟨hhits0, hmisses0, hoverlaid0⟩ := h
  refine .present ?_ ?_ (hoverlaid hoverlaid0)
  · simp only [map_append, map_cons, sum_append, sum_cons] at hhits0 ⊢
    omega
  · simp only [map_append, map_cons, sum_append, sum_cons] at hmisses0 ⊢
    omega

lemma Accounted.count {row' : Lane}
    (h : Accounted (before ++ row :: after) (some start) (some now))
    (hhits : now'.hits + row.hits = now.hits + row'.hits)
    (hmisses : now'.misses + row.misses = now.misses + row'.misses)
    (hentries : now'.entries = now.entries) (hstored : row'.stored = row.stored) :
    Accounted (before ++ row' :: after) (some start) (some now') := by
  refine h.recount hhits hmisses fun hoverlaid => ?_
  rw [filterMap_append, filterMap_cons, hstored, ← filterMap_cons,
    ← filterMap_append]
  refine ⟨?_, ?_, ?_⟩
  · rw [hentries]
    exact hoverlaid.held
  · rw [hentries]
    exact hoverlaid.kept
  · rw [Cache.size, hentries]
    exact hoverlaid.size

lemma lookup_setEntry (entries : List (String × CacheEntry)) (name : String) (entry : CacheEntry)
    (other : String) : (setEntry entries name entry).lookup other =
      if other = name then some entry else entries.lookup other := by
  have hcons (key : String) (content : CacheEntry) (rest : List (String × CacheEntry)) :
      ((key, content) :: rest).lookup other =
        if other = key then some content else rest.lookup other := by
    rw [lookup_cons]
    by_cases h : other = key
    · simp [h]
    · have hne : (other == key) = false := by simpa using h
      rw [hne, if_neg h]
  induction entries with
  | nil => rw [setEntry, hcons]
  | cons first rest ih =>
    rw [setEntry]
    split_ifs with hfirst hother hother
    · rw [hcons, if_pos hother]
    · rw [hcons, hcons, hfirst, if_neg hother, if_neg hother]
    · rw [hcons, ih, if_pos hother, if_neg (hother.trans_ne (Ne.symm hfirst))]
    · rw [hcons, hcons, ih, if_neg hother]

lemma length_setEntry (entries : List (String × CacheEntry)) (name : String) (entry : CacheEntry) :
    (setEntry entries name entry).length =
      entries.length + if (entries.lookup name).isNone then 1 else 0 := by
  have hkeys := congrArg List.length (keys_setEntry entries name entry)
  have hmem : name ∈ entries.map Prod.fst ↔ (entries.lookup name).isNone = false := by
    simp
  rw [length_map] at hkeys
  split_ifs <;> simp_all

lemma Overlaid.store {left right : List (String × CacheEntry)} {entry : CacheEntry}
    (h : Overlaid start now (left ++ right)) (hname : name ∉ (left ++ right).map Prod.fst)
    (hentries : now'.entries = setEntry now.entries name entry) :
    Overlaid start now' (left ++ (name, entry) :: right) where
  held pair hpair := by
    rw [hentries, lookup_setEntry]
    rw [mem_append, mem_cons, or_left_comm, ← mem_append] at hpair
    rcases hpair with rfl | hpair
    · rw [if_pos rfl]
    · have hne : pair.1 ≠ name := fun heq => hname (heq ▸ mem_map_of_mem hpair)
      rw [if_neg hne]
      exact h.held pair hpair
  kept other hother := by
    rw [map_append, map_cons, mem_append, mem_cons, or_left_comm, not_or,
      ← mem_append, ← map_append] at hother
    rw [hentries, lookup_setEntry, if_neg hother.1]
    exact h.kept other hother.2
  size := by
    have hsize := h.size
    rw [Cache.size, hentries, length_setEntry, h.kept name hname]
    rw [Cache.size, countP_append] at hsize
    rw [countP_append, countP_cons]
    dsimp only
    omega

/-- Under a name that nothing was stored under, the cache holds what it held at the start. -/
lemma Overlaid.find? {made : List (String × CacheEntry)} (h : Overlaid start now made)
    (hname : name ∉ made.map Prod.fst) (stamp : Stamp) :
    now.find? name stamp = start.find? name stamp := by
  rw [Cache.find?, Cache.find?, h.kept name hname]

lemma ask_keeps {start now now' : Option Cache} {effect : Effect}
    (hname : item.name ∉ ((before ++ ⟨item, effect, .waiting item⟩ :: after).filterMap
      Lane.stored).map Prod.fst) (heffect : effect = effectOf env opts start item)
    (haccounted : Accounted (before ++ ⟨item, effect, .waiting item⟩ :: after) start now)
    (hstep : (Pipeline.waiting item).step env opts now = some (stage, now')) :
    Lane.OnTheWay ⟨item, effect, stage⟩ ∧
      Accounted (before ++ ⟨item, effect, stage⟩ :: after) start now' := by
  rw [Pipeline.step] at hstep
  rw [effectOf] at heffect
  cases htask : taskOf env item with
  | settled result =>
    rw [htask] at hstep heffect
    cases hstep
    subst heffect
    refine ⟨rfl, ?_⟩
    cases haccounted with
    | absent => exact .absent
    | present hhits hmisses hoverlaid =>
      exact Accounted.count (.present hhits hmisses hoverlaid) rfl rfl rfl rfl
  | pending body stamp =>
    rw [htask] at hstep heffect
    dsimp only at hstep heffect
    cases haccounted with
    | absent =>
      cases hfresh : lowerFresh env opts body stamp with
      | mk result events =>
        rw [hfresh] at hstep heffect
        cases hstep
        cases result <;> exact ⟨heffect ▸ rfl, .absent⟩
    | @present start now hhits hmisses hoverlaid =>
      have hfind : now.find? body.name stamp = start.find? body.name stamp :=
        hoverlaid.find? (taskOf_name htask ▸ hname) stamp
      dsimp only at hstep
      rw [Cache.get, hfind] at hstep
      rw [Option.bind_some] at heffect
      have haccounted := Accounted.present hhits hmisses hoverlaid
      cases hfound : start.find? body.name stamp with
      | some entry =>
        rw [hfound] at hstep heffect
        cases hstep
        subst heffect
        exact ⟨rfl, haccounted.count rfl rfl rfl rfl⟩
      | none =>
        rw [hfound] at hstep heffect
        cases hfresh : lowerFresh env opts body stamp with
        | mk result events =>
          rw [hfresh] at hstep heffect
          subst heffect
          cases result with
          | error error =>
            cases hstep
            exact ⟨rfl, haccounted.count rfl rfl rfl rfl⟩
          | ok entry =>
            cases hstep
            exact ⟨⟨rfl, rfl⟩, haccounted.count rfl rfl rfl rfl⟩

lemma store_keeps {start now now' : Option Cache} {effect : Effect} {entry : CacheEntry}
    {events : List Compilation.Event}
    (hname : item.name ∉ ((before ++ ⟨item, effect, .storing name entry events⟩ :: after).filterMap
      Lane.stored).map Prod.fst) (heffect : effect = effectOf env opts start item)
    (hway : Lane.OnTheWay ⟨item, effect, .storing name entry events⟩)
    (haccounted : Accounted (before ++ ⟨item, effect, .storing name entry events⟩ :: after) start
      now)
    (hstep : (Pipeline.storing name entry events).step env opts now = some (stage, now')) :
    Lane.OnTheWay ⟨item, effect, stage⟩ ∧
      Accounted (before ++ ⟨item, effect, stage⟩ :: after) start now' := by
  obtain ⟨hstored, houtcome⟩ : effect.stored = some (name, entry) ∧
    effect.outcome = ⟨.ok (some entry), events⟩ := hway
  cases haccounted with
  | absent =>
    cases hstep
    exact ⟨houtcome.symm, .absent⟩
  | @present start now hhits hmisses hoverlaid =>
    rw [heffect] at hstored
    have hitem : name = item.name := effectOf_name hstored
    have hfind : now.find? name entry.stamp = none := by
      rw [hoverlaid.find? (hitem ▸ hname)]
      exact effectOf_new hstored
    rw [Pipeline.step, Cache.insert, hfind] at hstep
    cases hstep
    refine ⟨houtcome.symm, Accounted.recount (.present hhits hmisses hoverlaid) rfl rfl fun h => ?_⟩
    have hrow : Lane.stored ⟨item, effect, .done ⟨.ok (some entry), events⟩⟩ = some (name, entry) :=
      heffect ▸ hstored
    rw [filterMap_append, filterMap_cons_some hrow]
    rw [filterMap_append, filterMap_cons_none rfl] at h hname
    exact h.store (hitem ▸ hname) rfl

/-- A step of a pipeline brings it on the way to its effect, and the cache keeps account of it. -/
lemma step_keeps {start now now' : Option Cache}
    (hnames : ((before ++ row :: after).map (·.item.name)).Nodup)
    (heffects : ∀ r ∈ before ++ row :: after, r.effect = effectOf env opts start r.item)
    (hway : row.OnTheWay) (haccounted : Accounted (before ++ row :: after) start now)
    (hstep : row.stage.step env opts now = some (stage, now')) :
    { row with stage }.OnTheWay ∧ Accounted (before ++ { row with stage } :: after) start now' := by
  have heffect := heffects row (mem_append_right _ mem_cons_self)
  have hname := name_not_stored hnames heffects
  obtain ⟨item, effect, stage0⟩ := row
  cases stage0 with
  | done outcome => cases hstep
  | storing name entry events => exact store_keeps (hname rfl) heffect hway haccounted hstep
  | waiting item' =>
    obtain rfl : item' = item := hway
    exact ask_keeps (hname rfl) heffect haccounted hstep

end Steps

/-! ### Whole runs -/

section

variable {env : Environment} {opts : Options} {items : List LoadedItem} {start : Option Cache}
  {shop shop' : Shop}

/-- The pipelines of the items are on the way to the effects that are told from the cache at the
start, and the cache keeps account of them. -/
def Shop.OnTheWay (env : Environment) (opts : Options) (items : List LoadedItem)
    (start : Option Cache) (shop : Shop) : Prop :=
  ∃ rows : List Lane, rows.map Lane.item = items ∧ rows.map Lane.stage = shop.stages ∧
    (∀ row ∈ rows, row.effect = effectOf env opts start row.item ∧ row.OnTheWay) ∧
    Accounted rows start shop.cache

lemma start_onTheWay (env : Environment) (opts : Options) (items : List LoadedItem)
    (start : Option Cache) : (Shop.start items start).OnTheWay env opts items start := by
  refine ⟨items.map fun item => ⟨item, effectOf env opts start item, .waiting item⟩,
    ?_, ?_, ?_, ?_⟩
  · simp [Function.comp_def]
  · simp [Function.comp_def, Shop.start]
  · intro row hrow
    obtain ⟨item, -, rfl⟩ := mem_map.mp hrow
    exact ⟨rfl, rfl⟩
  · cases start with
    | none => exact .absent
    | some start =>
      refine .present ?_ ?_ ⟨?_, ?_, ?_⟩ <;>
        simp [Function.comp_def, Lane.hits, Lane.misses, Lane.stored, Cache.size]

lemma Shop.OnTheWay.step (hnames : (items.map (·.name)).Nodup)
    (h : shop.OnTheWay env opts items start) (hstep : Shop.Step env opts shop shop') :
    shop'.OnTheWay env opts items start := by
  obtain ⟨rows, rfl, hstages, hrows, haccounted⟩ := h
  obtain ⟨before, after, hstage⟩ := hstep
  obtain ⟨before, rest, rfl, rfl, hrest⟩ := map_eq_append_iff.mp hstages
  obtain ⟨row, after, rfl, rfl, rfl⟩ := map_eq_cons_iff.mp hrest
  rw [map_map] at hnames
  obtain ⟨hway, haccounted⟩ := step_keeps hnames (fun r hr => (hrows r hr).1)
    (hrows row (mem_append_right _ mem_cons_self)).2 haccounted hstage
  refine ⟨before ++ { row with stage := _ } :: after, ?_, ?_, ?_, haccounted⟩
  · simp
  · simp
  · intro r hr
    rcases mem_append.mp hr with hr | hr
    · exact hrows r (mem_append_left _ hr)
    · rcases mem_cons.mp hr with rfl | hr
      · exact ⟨(hrows row (mem_append_right _ mem_cons_self)).1, hway⟩
      · exact hrows r (mem_append_right _ (mem_cons_of_mem _ hr))

lemma Shop.OnTheWay.run (hnames : (items.map (·.name)).Nodup)
    (h : shop.OnTheWay env opts items start) (hrun : Shop.Run env opts shop shop') :
    shop'.OnTheWay env opts items start := by
  induction hrun with
  | refl => exact h
  | tail _ hstep ih => exact ih.step hnames hstep

/-- What two caches that cannot be told apart have in common: the entry of every name, how many
there are, and what has been counted. -/
structure SameContent (a b : Cache) : Prop where
  entries : ∀ name, a.entries.lookup name = b.entries.lookup name
  size : a.size = b.size
  hits : a.hits = b.hits
  misses : a.misses = b.misses

lemma Overlaid.lookup_eq {start a b : Cache} {made : List (String × CacheEntry)}
    (ha : Overlaid start a made) (hb : Overlaid start b made) (name : String) :
    a.entries.lookup name = b.entries.lookup name := by
  by_cases hname : name ∈ made.map Prod.fst
  · obtain ⟨pair, hpair, rfl⟩ := mem_map.mp hname
    rw [ha.held pair hpair, hb.held pair hpair]
  · rw [ha.kept name hname, hb.kept name hname]

lemma Accounted.same {rows : List Lane} {a b : Option Cache} (ha : Accounted rows start a)
    (hb : Accounted rows start b) : Option.Rel SameContent a b := by
  cases ha with
  | absent =>
    cases hb
    exact .none
  | present hhits hmisses hoverlaid =>
    obtain - | ⟨hhits', hmisses', hoverlaid'⟩ := hb
    exact .some ⟨hoverlaid.lookup_eq hoverlaid', hoverlaid.size.trans hoverlaid'.size.symm,
      hhits.trans hhits'.symm, hmisses.trans hmisses'.symm⟩

lemma Shop.OnTheWay.finished {outcomes : List ItemOutcome} {cache : Option Cache}
    (h : (Shop.finished outcomes cache).OnTheWay env opts items start) :
    outcomes = items.map (fun item => (effectOf env opts start item).outcome) ∧
    Accounted (items.map fun item => Lane.mk item (effectOf env opts start item)
      (.done (effectOf env opts start item).outcome)) start cache := by
  obtain ⟨rows, rfl, hstages, hrows, haccounted⟩ := h
  have hrow : ∀ row ∈ rows, row = ⟨row.item, effectOf env opts start row.item,
      .done (effectOf env opts start row.item).outcome⟩ := by
    intro row hrow
    have hdone : row.stage ∈ outcomes.map Pipeline.done :=
      (show _ = outcomes.map Pipeline.done from hstages) ▸ mem_map_of_mem hrow
    obtain ⟨outcome, -, hstage⟩ := mem_map.mp hdone
    obtain ⟨heffect, hway⟩ := hrows row hrow
    obtain ⟨item, effect, stage⟩ := row
    obtain rfl : _ = stage := hstage
    obtain rfl : effect = effectOf env opts start item := heffect
    obtain rfl : outcome = (effectOf env opts start item).outcome := hway
    rfl
  have hrows : rows = (rows.map Lane.item).map fun item => Lane.mk item
      (effectOf env opts start item) (.done (effectOf env opts start item).outcome) := by
    rw [map_map]
    exact (map_id rows).symm.trans (map_congr_left hrow)
  refine ⟨?_, hrows ▸ haccounted⟩
  refine map_injective_iff.mpr (fun _ _ => Pipeline.done.inj) (hstages.symm.trans ?_)
  rw [hrows]
  simp only [map_map, Function.comp_def]

end

/-- The items of a loaded program have different names, none of which was seen before. -/
lemma loadItems_names {datas : Source.DataNames}
    {items : List (Source.Item Source.TypeName Source.Bounds Unit)} {seen : List String}
    {s s' : Source.LoadState} {loaded : List LoadedItem}
    (h : (Source.loadItems datas seen items).run s = .ok (loaded, s')) :
    (loaded.map (·.name)).Nodup ∧ ∀ item ∈ loaded, item.name ∉ seen := by
  induction items generalizing seen s loaded with
  | nil =>
    cases h
    simp
  | cons item rest ih =>
    rw [Source.loadItems] at h
    split_ifs at h with hnew
    · cases h
    obtain ⟨⟨kind, s1⟩, -, h⟩ := bind_eq_ok_iff.mp h
    obtain ⟨⟨span, s2⟩, -, h⟩ := bind_eq_ok_iff.mp h
    obtain ⟨⟨others, s3⟩, hrest, h⟩ := bind_eq_ok_iff.mp h
    cases h
    obtain ⟨hnodup, hothers⟩ := ih hrest
    refine ⟨?_, ?_⟩
    · rw [map_cons, nodup_cons]
      refine ⟨fun hmem => ?_, hnodup⟩
      obtain ⟨other, hother, hname⟩ := mem_map.mp hmem
      exact hothers other hother (hname ▸ mem_cons_self)
    · intro other hother
      rcases mem_cons.mp hother with rfl | hother
      · exact hnew
      · exact fun hmem => hothers other hother (mem_cons_of_mem _ hmem)

lemma load_names {tree : Tree} {prog : Program} (h : tree.load = .ok prog) :
    (prog.items.map (·.name)).Nodup := by
  obtain ⟨⟨items, state⟩, hrun, hprogram⟩ := bind_eq_ok_iff.mp h
  cases hprogram
  rw [Source.loadTree, StateT.run_bind] at hrun
  obtain ⟨⟨datas, s1⟩, -, hrun⟩ := bind_eq_ok_iff.mp hrun
  obtain ⟨⟨⟨⟩, s2⟩, -, hitems⟩ := bind_eq_ok_iff.mp hrun
  exact (loadItems_names hitems).1

/-- What a program is lowered to, from what became of its items and the cache. -/
def outcomeOf (digest : Digest) (prog : Program) (opts : Options) (outcomes : List ItemOutcome)
    (cache : Option Cache) : ModuleOutcome :=
  let env := Environment.ofProgram digest prog
  let module : Ir.Module := { name := prog.name, types := env.layouts }
  let (result, reports, events) := gather env opts module [] (prog.items.zip outcomes)
  { result, reports, events := outcomes.flatMap ItemOutcome.events ++ events, cache }

lemma lowerModule_eq (digest : Digest) (prog : Program) (opts : Options) (cache : Option Cache) :
    lowerModule digest prog opts cache = outcomeOf digest prog opts
      (lowerItems (.ofProgram digest prog) opts cache prog.items).1
      (lowerItems (.ofProgram digest prog) opts cache prog.items).2 :=
  rfl

/-- However the pipelines of the items of a loaded program follow each other, they can be brought to
their ends, and then each item has the outcome that it has when the items are lowered one after the
other; so the module or the error and the reports in their order are those of lowering the program,
and the caches hold the same and have counted the same. -/
theorem lowering_in_any_order (digest : Digest) {tree : Tree} {program : Program}
    (hload : tree.load = .ok program) (options : Options) (cache : Option Cache) (shop : Shop)
    (hrun : Shop.Run (.ofProgram digest program) options (.start program.items cache) shop) :
    (∃ outcomes after, Shop.Run (.ofProgram digest program) options shop (.finished outcomes after)) ∧
    ∀ outcomes after, shop = .finished outcomes after →
      outcomes = (lowerItems (.ofProgram digest program) options cache program.items).1 ∧
      (outcomeOf digest program options outcomes after).result =
        (lowerModule digest program options cache).result ∧
      (outcomeOf digest program options outcomes after).reports =
        (lowerModule digest program options cache).reports ∧
      Option.Rel SameContent after (lowerModule digest program options cache).cache := by
  refine ⟨exists_run_finished [] shop.stages shop.cache, ?_⟩
  rintro outcomes after rfl
  have hstart := start_onTheWay (.ofProgram digest program) options program.items cache
  have hnames := load_names hload
  obtain ⟨houtcomes, hafter⟩ := (hstart.run hnames hrun).finished
  obtain ⟨hinOrder, hcache⟩ := (hstart.run hnames (run_lowerItems [] cache program.items)).finished
  obtain rfl := houtcomes.trans hinOrder.symm
  rw [lowerModule_eq]
  exact ⟨rfl, rfl, rfl, hafter.same hcache⟩

def pairTree : Tree :=
  { doubleTree with
    items := doubleTree.items ++
      [⟨(), none, "nothing", .function [] .unit (some ⟨(), none, [], none⟩)⟩] }

def nothingItem : LoadedItem :=
  ⟨6, .zero, "nothing", .function [] Source.TypeTable.unit (some ⟨5, .zero, [], none⟩)⟩

def pair : Program :=
  { double with items := [doubleItem, nothingItem] }

lemma pair_loads : pairTree.load = .ok pair := rfl

/-- The second function asks the cache before the first one does. -/
theorem pair_in_another_order : pairTree.load = .ok pair ∧ ∃ stage cache outcomes after,
    Shop.Step (.ofProgram .fnv pair) {} (.start pair.items (some {}))
      ⟨[.waiting doubleItem, stage], cache⟩ ∧
    Shop.Run (.ofProgram .fnv pair) {} ⟨[.waiting doubleItem, stage], cache⟩
      (.finished outcomes after) ∧
    (outcomeOf .fnv pair {} outcomes after).result = (lowerModule .fnv pair {} (some {})).result ∧
    Option.Rel SameContent after (lowerModule .fnv pair {} (some {})).cache := by
  obtain ⟨stage, cache, hask⟩ : ∃ stage cache,
      (Pipeline.waiting nothingItem).step (.ofProgram .fnv pair) {} (some {}) =
        some (stage, cache) := by
    rcases lowerItem_eq_steps (.ofProgram .fnv pair) {} (some {}) nothingItem with
      h | ⟨stage, cache, h, -⟩
    · exact ⟨_, _, h⟩
    · exact ⟨stage, cache, h⟩
  have hstep : Shop.Step (.ofProgram .fnv pair) {} (.start pair.items (some {}))
      ⟨[.waiting doubleItem, stage], cache⟩ := .mk [.waiting doubleItem] [] hask
  obtain ⟨⟨outcomes, after, hrun⟩, -⟩ :=
    lowering_in_any_order .fnv pair_loads {} (some {}) _ (.single hstep)
  obtain ⟨-, hresult, -, hcache⟩ :=
    (lowering_in_any_order .fnv pair_loads {} (some {}) _ (.head hstep hrun)).2 outcomes after rfl
  exact ⟨pair_loads, stage, cache, outcomes, after, hstep, hrun, hresult, hcache⟩

end SsaLowering.Proofs
