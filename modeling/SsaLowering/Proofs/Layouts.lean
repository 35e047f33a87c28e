import SsaLowering.Ir.Layout
import Mathlib.Data.List.Nodup
import Mathlib.Tactic.Basic

/-!
# Interned layouts

A table of layouts is indexed when it finds each of its layouts where it stands, and no others.
Interning keeps a table indexed. Replacing the fields of a data layout does so too, as long as no
other data layout has its name.
-/

namespace SsaLowering.Proofs

open Ir List

variable {layout : Layout} {table : LayoutTable}

/-- Two tables hold the same layouts and find them at the same numbers. -/
structure SameTable (a b : LayoutTable) : Prop where
  layouts : a.layouts = b.layouts
  find : ∀ layout, a.find? layout = b.find? layout

/-- The index of a table is that of its layouts interned in order. -/
def Interned (table : LayoutTable) : Prop :=
  SameTable table (.ofList table.layouts.toList)

/-- A table finds exactly the layouts that it holds. -/
def Indexed (table : LayoutTable) : Prop :=
  ∀ layout id, table.find? layout = some id ↔ table.get? id = some layout

lemma lookup_filter {α β : Type} [BEq α] [LawfulBEq α] (entries : List (α × β)) (p : α → Bool)
    (key : α) :
    (entries.filter fun entry => p entry.1).lookup key =
      if p key then entries.lookup key else none := by
  induction entries with
  | nil => simp
  | cons entry entries ih =>
    obtain ⟨other, content⟩ := entry
    by_cases hother : p other
    · rw [filter_cons_of_pos (by simpa using hother), lookup_cons, lookup_cons, ih]
      by_cases hkey : key = other
      · simp [hkey, hother]
      · have hbeq : (key == other) = false := by simpa using hkey
        simp [hbeq]
    · rw [filter_cons_of_neg (by simpa using hother), lookup_cons, ih]
      by_cases hkey : key = other
      · simp [hkey, hother]
      · have hbeq : (key == other) = false := by simpa using hkey
        simp [hbeq]

lemma SameTable.of_indexed {a b : LayoutTable} (ha : Indexed a) (hb : Indexed b)
    (h : a.layouts = b.layouts) : SameTable a b where
  layouts := h
  find layout := by
    refine Option.ext fun id => ?_
    rw [ha, hb, LayoutTable.get?, LayoutTable.get?, h]

lemma indexed_empty : Indexed .empty := by
  intro layout id
  simp [LayoutTable.find?, LayoutTable.get?, LayoutTable.empty]

namespace Indexed

lemma inj (h : Indexed table) {i j : Nat} (hi : table.get? i = some layout)
    (hj : table.get? j = some layout) : i = j := by
  have := ((h layout i).mpr hi).symm.trans ((h layout j).mpr hj)
  exact Option.some.inj this

lemma intern (h : Indexed table) (layout : Layout) : Indexed (table.intern layout).2 := by
  rw [LayoutTable.intern]
  cases hfind : table.find? layout with
  | some id => exact h
  | none =>
    intro other id
    have hold := h other id
    simp only [LayoutTable.find?, LayoutTable.get?, lookup_cons, Array.getElem?_push] at hold ⊢
    by_cases hother : other = layout
    · -- the layout was nowhere in the table before
      subst hother
      have hnew : table.layouts[id]? ≠ some other := fun hid => by
        rw [LayoutTable.find?] at hfind
        rw [hold.mpr hid] at hfind
        cases hfind
      by_cases hid : id = table.layouts.size
      · simp [hid]
      · simp only [BEq.rfl, Option.some.injEq, if_neg hid]
        exact iff_of_false (Ne.symm hid) hnew
    · have hbeq : (other == layout) = false := by simpa using hother
      simp only [hbeq]
      by_cases hid : id = table.layouts.size
      · subst hid
        simp only [if_true, Option.some.injEq]
        refine iff_of_false (fun hlookup => ?_) (Ne.symm hother)
        have hget := hold.mp hlookup
        simp at hget
      · simpa [hid] using hold

lemma foldl_intern (h : Indexed table) {layouts : List Layout}
    (hnodup : (table.layouts.toList ++ layouts).Nodup) :
    (layouts.foldl (fun table layout => (table.intern layout).2) table).layouts.toList =
        table.layouts.toList ++ layouts ∧
      Indexed (layouts.foldl (fun table layout => (table.intern layout).2) table) := by
  induction layouts generalizing table with
  | nil => simpa using h
  | cons layout layouts ih =>
    have hfind : table.find? layout = none := by
      refine Option.eq_none_iff_forall_ne_some.mpr fun id hid => ?_
      have hmem : layout ∈ table.layouts.toList := by
        refine mem_iff_getElem?.mpr ⟨id, ?_⟩
        rw [Array.getElem?_toList]
        exact (h layout id).mp hid
      exact (nodup_append.mp hnodup).2.2 _ hmem _ mem_cons_self rfl
    have hlayouts : (table.intern layout).2.layouts.toList = table.layouts.toList ++ [layout] := by
      simp [LayoutTable.intern, hfind]
    have hstep := ih (h.intern layout) (by simpa [hlayouts] using hnodup)
    rw [foldl_cons]
    refine ⟨?_, hstep.2⟩
    rw [hstep.1, hlayouts, append_assoc, singleton_append]

lemma nodup (h : Indexed table) : table.layouts.toList.Nodup := by
  refine nodup_iff_injective_get.mpr fun i j hij => Fin.ext ?_
  have hget (k : Fin table.layouts.toList.length) :
      table.get? k = some (table.layouts.toList.get k) := by
    rw [LayoutTable.get?, ← Array.getElem?_toList, getElem?_eq_getElem k.2]
    rfl
  have hj := hget j
  rw [← hij] at hj
  exact h.inj (hget i) hj

lemma interned (h : Indexed table) : Interned table := by
  have hnodup : (LayoutTable.empty.layouts.toList ++ table.layouts.toList).Nodup := by
    simpa [LayoutTable.empty] using h.nodup
  have hbuilt := indexed_empty.foldl_intern hnodup
  refine SameTable.of_indexed h hbuilt.2 ?_
  rw [← Array.toList_inj]
  exact hbuilt.1.symm

end Indexed

/-- An indexed table in which no two data layouts have the same name. -/
structure Tidy (table : LayoutTable) : Prop where
  indexed : Indexed table
  named : ∀ i j a b, table.get? i = some a → table.get? j = some b → a.kind = .data →
    b.kind = .data → a.name = b.name → i = j

/-- The data layouts of a table have no fields yet. -/
def Bare (table : LayoutTable) : Prop :=
  ∀ id layout, table.get? id = some layout → layout.kind = .data → layout.fields = []

lemma get?_intern_of_get? {other : Layout} {id : Nat} (h : table.get? id = some other) :
    (table.intern layout).2.get? id = some other := by
  rw [LayoutTable.intern]
  cases hfind : table.find? layout with
  | some _ => exact h
  | none =>
    have hlt : id < table.layouts.size := (Array.getElem?_eq_some_iff.mp h).1
    simp only [LayoutTable.get?, Array.getElem?_push, if_neg (Nat.ne_of_lt hlt)]
    exact h

lemma Indexed.get?_intern (h : Indexed table) (layout : Layout) :
    (table.intern layout).2.get? (table.intern layout).1 = some layout := by
  rw [LayoutTable.intern]
  cases hfind : table.find? layout with
  | some id => exact (h layout id).mp hfind
  | none => simp [LayoutTable.get?]

lemma get?_intern_cases {other : Layout} {id : Nat}
    (h : (table.intern layout).2.get? id = some other) :
    table.get? id = some other ∨ other = layout := by
  rw [LayoutTable.intern] at h
  cases hfind : table.find? layout with
  | some _ =>
    rw [hfind] at h
    exact .inl h
  | none =>
    simp only [hfind, LayoutTable.get?, Array.getElem?_push] at h
    split_ifs at h
    · exact .inr (Option.some.inj h).symm
    · exact .inl h

lemma Bare.intern (h : Bare table) (hlayout : layout.kind = .data → layout.fields = []) :
    Bare (table.intern layout).2 := by
  intro id other hget hkind
  rcases get?_intern_cases hget with hold | rfl
  · exact h id other hold hkind
  · exact hlayout hkind

lemma Indexed.tidy (h : Indexed table) (hbare : Bare table) : Tidy table where
  indexed := h
  named i j a b hi hj ha hb hname := by
    have heq : a = b := by
      obtain ⟨_, _, _⟩ := a
      obtain ⟨_, _, _⟩ := b
      have hfa := hbare i _ hi ha
      have hfb := hbare j _ hj hb
      simp_all
    exact h.inj hi (heq ▸ hj)

/-! ### Replacing fields -/

section Fields

variable {id : Nat}

lemma get?_setFields (hid : table.get? id = some layout) (given : List Ty) (other : Nat) :
    (table.setFields id given).get? other =
      if other = id then some { layout with fields := given } else table.get? other := by
  rw [LayoutTable.get?] at hid
  have hlt : id < table.layouts.size := (Array.getElem?_eq_some_iff.mp hid).1
  simp only [LayoutTable.setFields, hid, LayoutTable.get?, Array.getElem?_setIfInBounds]
  by_cases hother : other = id
  · subst hother
    simp [hlt]
  · simp [hother, Ne.symm hother]

lemma find?_setFields (hid : table.get? id = some layout) (given : List Ty) (other : Layout) :
    (table.setFields id given).find? other =
      if other = { layout with fields := given } then some id
      else if other = layout then none else table.find? other := by
  rw [LayoutTable.get?] at hid
  simp only [LayoutTable.find?, LayoutTable.setFields, hid, lookup_cons]
  rw [lookup_filter table.index fun key => key ≠ layout && key ≠ { layout with fields := given }]
  by_cases hother : other = { layout with fields := given }
  · simp [hother]
  · have hbeq : (other == { layout with fields := given }) = false := by simpa using hother
    simp [hbeq, hother]

/-- The table finds its layouts as before, unless the new layout stands elsewhere already. -/
lemma Indexed.setFields (h : Indexed table) (hid : table.get? id = some layout) {given : List Ty}
    (hfree : ∀ other, table.get? other = some { layout with fields := given } → other = id) :
    Indexed (table.setFields id given) := by
  intro found other
  rw [get?_setFields hid, find?_setFields hid]
  by_cases hgiven : found = { layout with fields := given }
  · subst hgiven
    rw [if_pos rfl]
    refine ⟨fun heq => if_pos (Option.some.inj heq).symm, fun hother => ?_⟩
    split_ifs at hother with heq
    · rw [heq]
    · rw [hfree other hother]
  · rw [if_neg hgiven]
    by_cases hother : other = id
    · subst hother
      rw [if_pos rfl]
      refine iff_of_false ?_ fun heq => hgiven (Option.some.inj heq).symm
      split_ifs with hlayout
      · simp
      · rw [h, hid]
        exact fun heq => hlayout (Option.some.inj heq).symm
    · rw [if_neg hother]
      split_ifs with hlayout
      · subst hlayout
        exact iff_of_false (by simp) fun heq => hother (h.inj heq hid)
      · exact h found other

lemma Tidy.setFields {name : String} {fields : List Ty} (h : Tidy table)
    (hid : table.get? id = some (.data name fields)) (given : List Ty) :
    Tidy (table.setFields id given) where
  -- a second data layout of the name would have been there before
  indexed := h.indexed.setFields hid fun other hother => h.named _ _ _ _ hother hid rfl rfl rfl
  named i j a b hi hj ha hb hname := by
    have hback : ∀ k c, (table.setFields id given).get? k = some c → c.kind = .data →
        ∃ c', table.get? k = some c' ∧ c'.kind = .data ∧ c'.name = c.name := by
      intro k c hk hc
      rw [get?_setFields hid] at hk
      split_ifs at hk with heq
      · obtain rfl := Option.some.inj hk
        exact ⟨.data name fields, heq ▸ hid, rfl, rfl⟩
      · exact ⟨c, hk, hc, rfl⟩
    obtain ⟨a', ha', hka, hna⟩ := hback i a hi ha
    obtain ⟨b', hb', hkb, hnb⟩ := hback j b hj hb
    exact h.named i j a' b' ha' hb' hka hkb (by rw [hna, hnb, hname])

end Fields

/-! ### Any use of a table -/

/-- A use of a layout table. -/
inductive LayoutStep where
  | intern (layout : Layout)
  | setFields (id : Nat) (fields : List Ty)

namespace LayoutStep

def apply (table : LayoutTable) : LayoutStep → LayoutTable
  | intern layout => (table.intern layout).2
  | setFields id fields => table.setFields id fields

/-- Whether a step gives no layout the fields that make it equal to another one. -/
def keepsApart (table : LayoutTable) : LayoutStep → Bool
  | intern _ => true
  | setFields id fields => (table.get? id).all fun layout =>
    (table.find? { layout with fields }).all (· = id)

end LayoutStep

/-- Whether each step in turn keeps layouts apart. -/
def staysApart (table : LayoutTable) : List LayoutStep → Bool
  | [] => true
  | step :: steps => step.keepsApart table && staysApart (step.apply table) steps

/-- Numbers and layouts are one to one, and interning a layout of the table gives its number. -/
structure OneToOne (table : LayoutTable) : Prop where
  distinct : ∀ i j layout, table.get? i = some layout → table.get? j = some layout → i = j
  interned : ∀ id layout, table.get? id = some layout → table.intern layout = (id, table)

lemma Indexed.oneToOne (h : Indexed table) : OneToOne table where
  distinct _ _ _ := h.inj
  interned id layout hid := by rw [LayoutTable.intern, (h layout id).mpr hid]

lemma Indexed.apply_iff (h : Indexed table) (step : LayoutStep) :
    (step.keepsApart table = true → Indexed (step.apply table)) ∧
      (OneToOne (step.apply table) → step.keepsApart table = true) := by
  cases step with
  | intern layout => exact ⟨fun _ => h.intern layout, fun _ => rfl⟩
  | setFields id fields =>
    rw [LayoutStep.apply, LayoutStep.keepsApart]
    cases hid : table.get? id with
    | none =>
      have hsame : table.setFields id fields = table := by
        rw [LayoutTable.get?] at hid
        rw [LayoutTable.setFields, hid]
      exact ⟨fun _ => hsame.symm ▸ h, fun _ => rfl⟩
    | some layout =>
      simp only [Option.all_some, Option.all_eq_true, decide_eq_true_eq]
      refine ⟨fun hfree => h.setFields hid fun other hother => hfree other ((h _ _).mpr hother),
        fun hone other hother => ?_⟩
      -- otherwise two numbers would have the new layout
      by_contra hne
      refine hne (hone.distinct other id { layout with fields } ?_ ?_)
      · rw [get?_setFields hid, if_neg hne]
        exact (h _ _).mp hother
      · rw [get?_setFields hid, if_pos rfl]

lemma Indexed.run_iff (h : Indexed table) (steps : List LayoutStep) :
    (∀ taken, taken <+: steps → OneToOne (taken.foldl LayoutStep.apply table)) ↔
      staysApart table steps = true := by
  induction steps generalizing table with
  | nil => simpa [staysApart] using h.oneToOne
  | cons step steps ih =>
    obtain ⟨hkeeps, hneeds⟩ := h.apply_iff step
    rw [staysApart, Bool.and_eq_true]
    constructor
    · intro hall
      have hstep := hneeds (hall [step] ⟨steps, rfl⟩)
      refine ⟨hstep, (ih (hkeeps hstep)).mp fun taken htaken => ?_⟩
      exact hall (step :: taken) (List.cons_prefix_cons.mpr ⟨rfl, htaken⟩)
    · rintro ⟨hstep, hsteps⟩ taken htaken
      cases taken with
      | nil => exact h.oneToOne
      | cons first taken =>
        obtain ⟨rfl, hrest⟩ := List.cons_prefix_cons.mp htaken
        exact (ih (hkeeps hstep)).mpr hsteps taken hrest

/-- After each step of a run from the empty table, numbers and layouts are one to one, exactly if no
step gives a layout the fields that make it equal to another one. -/
theorem layouts_stay_one_to_one_iff (steps : List LayoutStep) :
    (∀ taken, taken <+: steps → OneToOne (taken.foldl LayoutStep.apply .empty)) ↔
      staysApart .empty steps = true :=
  indexed_empty.run_iff steps

/-- Two layouts become equal and are told apart again. -/
def meetingSteps : List LayoutStep :=
  [.intern (.data "A" []), .intern (.data "A" [.i64]), .setFields 0 [.i64], .setFields 0 []]

/-- The second layout is still there, but interning it adds it once more. -/
theorem meetingSteps_lose_a_layout : ∃ table, meetingSteps.foldl LayoutStep.apply .empty = table ∧
    table.get? 1 = some (.data "A" [.i64]) ∧ (table.intern (.data "A" [.i64])).1 = 2 ∧
      ¬ OneToOne table := by
  refine ⟨_, rfl, by decide, by decide, fun h => ?_⟩
  exact absurd (congrArg Prod.fst (h.interned 1 (.data "A" [.i64]) (by decide))) (by decide)

end SsaLowering.Proofs
