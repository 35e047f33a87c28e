import SsaLowering.Proofs.DepthFirst
import SsaLowering.Proofs.ImmediateDominators

/-!
# The dominator tree of a function

Where the recorded predecessors of the blocks that can be reached agree with the edges, the
dominators of a function are computed, and what is read off them is what the paths through the
function say: which blocks can be reached, and which block immediately dominates which.
-/

namespace SsaLowering.Proofs

open Ir List

variable {α : Type} {order : List Block} {i j : Nat} {b : Block}

/-- Among the blocks that can be reached, recorded predecessors are the sources of the edges. -/
def PredsAgree (f : Function) (entry : Block) : Prop :=
  ∀ p b, Reachable (Edge f) entry p → Reachable (Edge f) entry b →
    (p ∈ f.preds b ↔ Edge f p b)

/-- Control gets to blocks that exist only. -/
def BlocksExist (f : Function) (entry : Block) : Prop :=
  ∀ b, Reachable (Edge f) entry b → b.id < f.blocks.size

/-! ### Tables filled along a list -/

lemma get_modify (table : SideTable α) (key other : Nat) (change : α → α) :
    (table.modify key change).get other =
      if other = key then change (table.get key) else table.get other := by
  rw [SideTable.modify, SideTable.get_set]

lemma foldl_set_zipIdx (blocks : List Block) (hnodup : blocks.Nodup) (k : Nat)
    (table : SideTable (Option Nat)) (b : Block) :
    ((blocks.zipIdx k).foldl (fun table (block, position) => table.set block.id (some position))
      table).get b.id = if b ∈ blocks then some (k + blocks.idxOf b) else table.get b.id := by
  induction blocks generalizing k table with
  | nil => simp
  | cons x blocks ih =>
    obtain ⟨hx, hrest⟩ := nodup_cons.mp hnodup
    rw [zipIdx_cons, foldl_cons, ih hrest]
    by_cases hb : b ∈ blocks
    · have hne : x ≠ b := fun h => hx (h ▸ hb)
      rw [if_pos hb, if_pos (mem_cons_of_mem _ hb), idxOf_cons_ne _ hne]
      congr 1
      omega
    · rw [if_neg hb, SideTable.get_set]
      by_cases hxb : b = x
      · subst hxb
        simp
      · have hid : b.id ≠ x.id := fun h => hxb (by cases b; cases x; simp_all)
        rw [if_neg hid, if_neg (by simp [hxb, hb])]

lemma ranks_get (hnodup : order.Nodup) (b : Block) :
    (Dominators.ranks order).get b.id = if b ∈ order then some (order.idxOf b) else none := by
  unfold Dominators.ranks
  rw [foldl_set_zipIdx order hnodup]
  simp [SideTable.get]

lemma getElem?_eq_some_iff_idxOf (hnodup : order.Nodup) :
    order[i]? = some b ↔ b ∈ order ∧ order.idxOf b = i := by
  constructor
  · intro h
    obtain ⟨hi, rfl⟩ := List.getElem?_eq_some_iff.mp h
    exact ⟨List.getElem_mem hi, hnodup.idxOf_getElem i hi⟩
  · rintro ⟨hb, rfl⟩
    exact List.getElem?_idxOf hb

lemma ranks_get_iff (hnodup : order.Nodup) (b : Block) (i : Nat) :
    (Dominators.ranks order).get b.id = some i ↔ order[i]? = some b := by
  rw [ranks_get hnodup, getElem?_eq_some_iff_idxOf hnodup]
  split <;> simp_all

lemma lookup_eq_some_iff_mem {β : Type} [DecidableEq α] {entries : List (α × β)}
    (hnodup : (entries.map Prod.fst).Nodup) {key : α} {value : β} :
    entries.lookup key = some value ↔ (key, value) ∈ entries := by
  induction entries with
  | nil => simp
  | cons e entries ih =>
    obtain ⟨x, v⟩ := e
    obtain ⟨hx, hrest⟩ := nodup_cons.mp hnodup
    rw [lookup_cons]
    by_cases hkey : key = x
    · subst hkey
      have hnot : (key, value) ∉ entries := fun h => hx (mem_map.mpr ⟨_, h, rfl⟩)
      simp [hnot, eq_comm]
    · have hbeq : (key == x) = false := beq_eq_false_iff_ne.mpr hkey
      simp [hbeq, hkey, ih hrest]

lemma foldl_set_get (entries : List (Block × Block)) (hnodup : (entries.map Prod.fst).Nodup)
    (table : SideTable (Option Block)) (b : Block) :
    (entries.foldl (fun table (block, parent) => table.set block.id (some parent)) table).get b.id =
      (entries.lookup b).or (table.get b.id) := by
  induction entries generalizing table with
  | nil => simp
  | cons e entries ih =>
    obtain ⟨x, parent⟩ := e
    obtain ⟨hx, hrest⟩ := nodup_cons.mp hnodup
    rw [foldl_cons, ih hrest, SideTable.get_set, lookup_cons]
    by_cases hbx : b = x
    · subst hbx
      have hnone : entries.lookup b = none := lookup_eq_none_iff.mpr fun p hp => by
        simpa using fun h : b = p.1 => hx (mem_map.mpr ⟨p, hp, h.symm⟩)
      simp [hnone]
    · have hid : b.id ≠ x.id := fun h => hbx (by cases b; cases x; simp_all)
      have hbeq : (b == x) = false := beq_eq_false_iff_ne.mpr hbx
      simp [hid, hbeq]

lemma foldl_modify_get (entries : List (Block × Block)) (table : SideTable (List Block))
    (d : Block) :
    (entries.foldl (fun table (block, parent) => table.modify parent.id (· ++ [block])) table).get
      d.id = table.get d.id ++ (entries.filter (·.2 = d)).map Prod.fst := by
  induction entries generalizing table with
  | nil => simp
  | cons e entries ih =>
    obtain ⟨x, parent⟩ := e
    rw [foldl_cons, ih, get_modify]
    by_cases hd : parent = d
    · subst hd
      simp
    · have hid : d.id ≠ parent.id := fun h => hd (by cases d; cases parent; simp_all)
      simp [hid, hd]

lemma mapM_ok {β : Type} {f : α → Except Fault β} (g : α → β) (l : List α)
    (h : ∀ x ∈ l, f x = .ok (g x)) : l.mapM f = .ok (l.map g) := by
  induction l with
  | nil => rfl
  | cons x l ih =>
    rw [mapM_cons, h x mem_cons_self, ih fun z hz => h z (mem_cons_of_mem _ hz)]
    rfl

/-! ### From blocks to places and back -/

section Transfer

variable {f : Function} {entry : Block}

/-- The predecessors of the blocks of an order, as places in it. -/
def placePreds (f : Function) (order : List Block) : List (List Nat) :=
  order.map fun block =>
    (f.preds block).filterMap fun pred => (Dominators.ranks order).get pred.id

section

variable (ho : OrderOf f entry order) (hp : PredsAgree f entry)
include ho hp

lemma placeEdge_iff : PlaceEdge (placePreds f order) i j ↔
      ∃ p b, order[i]? = some p ∧ order[j]? = some b ∧ Edge f p b := by
  have hreach : ∀ {k : Nat} {x : Block}, order[k]? = some x →
      Reachable (Edge f) entry x :=
    fun h => (ho.mem_iff _).mp (mem_of_getElem? h)
  constructor
  · rintro ⟨ps, hps, hmem⟩
    simp only [placePreds, getElem?_map, Option.map_eq_some_iff] at hps
    obtain ⟨b, hb, rfl⟩ := hps
    obtain ⟨p, hpb, hrank⟩ := mem_filterMap.mp hmem
    have hpi := (ranks_get_iff ho.nodup p i).mp hrank
    exact ⟨p, b, hpi, hb, (hp p b (hreach hpi) (hreach hb)).mp hpb⟩
  · rintro ⟨p, b, hpi, hbj, hedge⟩
    refine ⟨_, by simp only [placePreds, getElem?_map, hbj, Option.map_some]; rfl, ?_⟩
    refine mem_filterMap.mpr ⟨p, (hp p b (hreach hpi) (hreach hbj)).mpr hedge, ?_⟩
    exact (ranks_get_iff ho.nodup p i).mpr hpi

omit ho hp in
lemma OrderOf.getElem?_zero (ho : OrderOf f entry order) : order[0]? = some entry := by
  rw [← head?_eq_getElem?]
  exact ho.head_eq

lemma placePreds_ranked : Ranked (placePreds f order) where
  pos := by
    have := (List.getElem?_eq_some_iff.mp ho.getElem?_zero).1
    simpa [placePreds] using this
  lt p i h := by
    obtain ⟨x, b, hx, -, -⟩ := (placeEdge_iff ho hp).mp h
    simpa [placePreds] using (List.getElem?_eq_some_iff.mp hx).1
  parent i hpos hi := by
    have hi' : i < order.length := by simpa [placePreds] using hi
    have hsplit : order = order.take i ++ order[i] :: order.drop (i + 1) := by simp
    rcases ho.parented _ _ _ hsplit with hroot | ⟨p, hpmem, hedge⟩
    · -- a later place cannot hold the entry again
      have heq : order[i]? = some entry := by
        rw [getElem?_eq_getElem hi', mem_singleton.mp hroot]
      have h0 := ((getElem?_eq_some_iff_idxOf ho.nodup).mp ho.getElem?_zero).2
      have h1 := ((getElem?_eq_some_iff_idxOf ho.nodup).mp heq).2
      omega
    · obtain ⟨k, hk, hget⟩ := mem_take_iff_getElem.mp hpmem
      refine ⟨k, by omega, (placeEdge_iff ho hp).mpr ⟨p, order[i], ?_, ?_, hedge⟩⟩
      · rw [getElem?_eq_getElem (by omega), hget]
      · exact getElem?_eq_getElem hi'

lemma dominates_places {a : Block} (ha : order[i]? = some a) (hb : order[j]? = some b) :
    Dominates (PlaceEdge (placePreds f order)) 0 i j ↔
      Dominates (Edge f) entry a b := by
  obtain ⟨hamem, hia⟩ := (getElem?_eq_some_iff_idxOf ho.nodup).mp ha
  obtain ⟨hbmem, hjb⟩ := (getElem?_eq_some_iff_idxOf ho.nodup).mp hb
  have h0 := ((getElem?_eq_some_iff_idxOf ho.nodup).mp ho.getElem?_zero).2
  constructor
  · intro h trail hpath
    have hmap : Path (PlaceEdge (placePreds f order)) (order.idxOf entry) (order.idxOf b)
        (trail.map order.idxOf) := hpath.map order.idxOf
      fun p x hreach hedge => (placeEdge_iff ho hp).mpr
        ⟨p, x, List.getElem?_idxOf ((ho.mem_iff p).mpr hreach),
          List.getElem?_idxOf ((ho.mem_iff x).mpr (hreach.step hedge)), hedge⟩
    rw [h0, hjb] at hmap
    obtain ⟨x, hx, hxi⟩ := mem_map.mp (h _ hmap)
    have hxmem := (ho.mem_iff x).mpr (hpath.reachable_of_mem hx)
    rwa [(idxOf_inj hxmem).mp (hxi.trans hia.symm)] at hx
  · intro h trail hpath
    have hget : ∀ {k : Nat} {x : Block}, order[k]? = some x → order.getD k entry = x := by
      intro k x hx
      simp [getD_eq_getElem?_getD, hx]
    have hmap : Path (Edge f) (order.getD 0 entry) (order.getD j entry)
        (trail.map fun k => order.getD k entry) := hpath.map (fun k => order.getD k entry)
      fun p x _ hedge => by
        obtain ⟨y, z, hy, hz, hyz⟩ := (placeEdge_iff ho hp).mp hedge
        rwa [hget hy, hget hz]
    simp only [hget ho.getElem?_zero, hget hb] at hmap
    obtain ⟨k, hk, hka⟩ := mem_map.mp (h _ hmap)
    have hlt : k < order.length := by
      have hk := (placePreds_ranked ho hp).path_lt hpath k hk
      simpa [placePreds] using hk
    have hka' : order[k]? = some a := by
      rw [← hka, getD_eq_getElem _ _ hlt, getElem?_eq_getElem hlt]
    rw [← hia, ((getElem?_eq_some_iff_idxOf ho.nodup).mp hka').2]
    exact hk

lemma isIdom_places {d : Block} (hd : order[i]? = some d) (hb : order[j]? = some b)
    (h : IsIdom (PlaceEdge (placePreds f order)) 0 i j) :
    IsIdom (Edge f) entry d b := by
  obtain ⟨⟨hdom, hne⟩, hall⟩ := h
  have hidx : ∀ {k l : Nat} {x y : Block}, order[k]? = some x → order[l]? = some y →
      (k ≠ l ↔ x ≠ y) := by
    intro k l x y hx hy
    obtain ⟨hxmem, rfl⟩ := (getElem?_eq_some_iff_idxOf ho.nodup).mp hx
    obtain ⟨-, rfl⟩ := (getElem?_eq_some_iff_idxOf ho.nodup).mp hy
    rw [Ne, idxOf_inj hxmem]
  refine ⟨⟨(dominates_places ho hp hd hb).mp hdom, (hidx hd hb).mp hne⟩, fun a ha => ?_⟩
  have hreach : Reachable (Edge f) entry b := (ho.mem_iff b).mp (mem_of_getElem? hb)
  have hamem : order[order.idxOf a]? = some a :=
    List.getElem?_idxOf ((ho.mem_iff a).mpr (ha.1.reachable hreach))
  refine (dominates_places ho hp hamem hd).mp (hall _ ⟨?_, ?_⟩)
  · exact (dominates_places ho hp hamem hb).mpr ha.1
  · exact (hidx hamem hb).mpr ha.2

lemma immediate_ok {found : Array (Option Nat)}
    (hfound : ParentsOf (placePreds f order) found) :
    ∃ parents, Dominators.immediate order found = .ok parents ∧
      parents.map Prod.fst = order.drop 1 ∧
      ∀ e ∈ parents, IsIdom (Edge f) entry e.2 e.1 := by
  have hlen : (placePreds f order).length = order.length := by simp [placePreds]
  let parentOf : Block × Nat → Block × Block := fun x =>
    (x.1, ((found[x.2]?).join.bind (order[·]?)).getD entry)
  have hplace : ∀ x ∈ order.zipIdx.drop 1, ∃ d, (found[x.2]?).join.bind (order[·]?) = some d ∧
      IsIdom (Edge f) entry d x.1 := by
    rintro ⟨b, i⟩ hmem
    obtain ⟨k, hk, hget⟩ := mem_iff_getElem.mp hmem
    simp only [length_drop, length_zipIdx] at hk
    simp only [getElem_drop, getElem_zipIdx, Nat.zero_add, Prod.mk.injEq] at hget
    obtain ⟨rfl, rfl⟩ := hget
    obtain ⟨j, hj, hidom⟩ := hfound.parent (1 + k) (by omega) (by omega)
    have hjlt : j < order.length := by
      have hr := placePreds_ranked ho hp
      have := hr.le_of_dominates (by omega) hidom.1.1
      omega
    have hd : order[j]? = some order[j] := getElem?_eq_getElem hjlt
    have hb : order[1 + k]? = some order[1 + k] := getElem?_eq_getElem (by omega)
    exact ⟨order[j], by simp [hj], isIdom_places ho hp hd hb hidom⟩
  refine ⟨(order.zipIdx.drop 1).map parentOf, mapM_ok parentOf _ fun x hx => ?_, ?_, ?_⟩
  · obtain ⟨d, hd, -⟩ := hplace x hx
    simp [parentOf, hd]
  · rw [map_map, map_drop]
    congr 1
    exact zipIdx_map_fst 0 order
  · rintro e he
    obtain ⟨x, hx, rfl⟩ := mem_map.mp he
    obtain ⟨d, hd, hidom⟩ := hplace x hx
    simpa [parentOf, hd] using hidom

end

end Transfer

/-- What is read off the dominators of a function is what the paths through it say. -/
structure DominatorsOf (f : Function) (entry : Block) (doms : Dominators) : Prop where
  order : OrderOf f entry doms.order
  rank_iff : ∀ (b : Block) (i : Nat),
    doms.rank.get b.id = some i ↔ doms.order[i]? = some b
  idom_iff : ∀ b d, doms.idom b = some d ↔
    Reachable (Edge f) entry b ∧ IsIdom (Edge f) entry d b
  idom_exists : ∀ b, Reachable (Edge f) entry b → b ≠ entry → ∃ d, doms.idom b = some d
  children_iff : ∀ b c, c ∈ doms.children b ↔ doms.idom c = some b
  children_nodup : ∀ b, (doms.children b).Nodup

/-- The dominators of a function are computed wherever its predecessors agree with its edges. -/
theorem compute_dominatorsOf {f : Function} {entry : Block}
    (hentry : f.entry? = some entry) (hblocks : BlocksExist f entry)
    (hp : PredsAgree f entry) :
    ∃ doms, Dominators.compute f = .ok doms ∧
      DominatorsOf f entry doms := by
  have ho := reversePostorder_orderOf hentry
  set order := Dominators.reversePostorder f with horder
  obtain ⟨found, hfound, hparents⟩ := stabilize_parentsOf (placePreds_ranked ho hp)
  obtain ⟨parents, himm, hfst, hidom⟩ := immediate_ok ho hp hparents
  have hholds : (order.all fun block => f.blocks.holds block.id) = true := by
    rw [all_eq_true]
    intro b hb
    simpa [Arena.holds] using hblocks b ((ho.mem_iff b).mp hb)
  have hlen : (placePreds f order).length = order.length := by simp [placePreds]
  rw [hlen] at hfound
  have hkeys : (parents.map Prod.fst).Nodup := hfst ▸ ho.nodup.sublist (drop_sublist 1 order)
  have hkey : ∀ b, b ∈ parents.map Prod.fst ↔ b ∈ order ∧ b ≠ entry := by
    intro b
    obtain ⟨rest, hrest⟩ : ∃ rest, order = entry :: rest := by
      have := ho.head_eq
      cases h : order with
      | nil => simp [h] at this
      | cons x rest => exact ⟨rest, by simpa [h] using this⟩
    have hnot : entry ∉ rest := (nodup_cons.mp (hrest ▸ ho.nodup)).1
    rw [hfst, hrest]
    simp only [drop_succ_cons, drop_zero, mem_cons]
    constructor
    · exact fun hb => ⟨.inr hb, fun h => hnot (h ▸ hb)⟩
    · rintro ⟨rfl | hb, hne⟩
      · exact absurd rfl hne
      · exact hb
  let doms : Dominators := {
    order
    rank := Dominators.ranks order
    idoms := parents.foldl (fun table (block, parent) => table.set block.id (some parent))
      { fallback := none }
    kids := parents.foldl (fun table (block, parent) => table.modify parent.id (· ++ [block]))
      { fallback := [] } }
  have hidoms : ∀ b d, doms.idom b = some d ↔ (b, d) ∈ parents := by
    intro b d
    rw [← lookup_eq_some_iff_mem hkeys]
    simp only [doms, Dominators.idom]
    rw [foldl_set_get parents hkeys]
    simp [SideTable.get]
  have hchildren : ∀ d, doms.children d = (parents.filter (·.2 = d)).map Prod.fst := by
    intro d
    simp only [doms, Dominators.children]
    rw [foldl_modify_get]
    simp [SideTable.get]
  refine ⟨doms, ?_, ho, ranks_get_iff ho.nodup, fun b d => ?_, fun b hreach hne => ?_,
    fun b c => ?_, fun b => ?_⟩
  · unfold Dominators.compute
    rw [← horder]
    rw [if_pos hholds]
    change (Dominators.stabilize (placePreds f order) (2 * order.length + 2)
      (order.length * order.length + order.length + 2)
      ((Array.replicate order.length none).setIfInBounds 0 (some 0)) >>= _) = _
    rw [hfound]
    change (Dominators.immediate order found >>= _) = _
    rw [himm]
    rfl
  · rw [hidoms]
    constructor
    · intro hmem
      have hb : b ∈ order := ((hkey b).mp (mem_map.mpr ⟨_, hmem, rfl⟩)).1
      exact ⟨(ho.mem_iff b).mp hb, hidom _ hmem⟩
    · rintro ⟨hreach, hbd⟩
      have hmem := (hkey b).mpr ⟨(ho.mem_iff b).mpr hreach, hbd.1.ne_entry⟩
      obtain ⟨⟨x, d'⟩, he, rfl⟩ := mem_map.mp hmem
      rwa [hbd.unique (hidom _ he) hreach]
  · obtain ⟨⟨x, d⟩, he, rfl⟩ := mem_map.mp ((hkey b).mpr ⟨(ho.mem_iff b).mpr hreach, hne⟩)
    exact ⟨d, (hidoms x d).mpr he⟩
  · rw [hchildren, hidoms]
    simp
  · rw [hchildren]
    exact hkeys.sublist (filter_sublist.map Prod.fst)

end SsaLowering.Proofs
