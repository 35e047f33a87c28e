import SsaLowering.Ir.Decoding
import SsaLowering.Proofs.References

/-!
# Reading the binary form back

A reader undoes a writer if, whatever follows the bytes that were written, it takes exactly these
bytes off the front and gives back what was written. Readers that are put together from such readers
are such readers, so the law is shown field by field. It holds for what fits: text and sequences of
less than `2 ^ 32` parts, and numbers below `2 ^ 32` wherever a word is written.
-/

namespace SsaLowering.Proofs

open Ir List

/-! ### Readers of what was written -/

/-- A reader takes some bytes off the front for a value, whatever follows them. -/
def Reads {α : Type} (reader : Decoding.Reader α) (bytes : List UInt8) (x : α) : Prop :=
  ∀ rest offset, reader.run ⟨bytes ++ rest, offset⟩ = .ok (x, ⟨rest, offset + bytes.length⟩)

namespace Reads

variable {α β : Type} {reader : Decoding.Reader α} {next : α → Decoding.Reader β}
  {bytes bytes' : List UInt8} {x : α} {y : β}

lemma pure (x : α) : Reads (Pure.pure x) [] x :=
  fun _ _ => rfl

lemma bind (h : Reads reader bytes x) (h' : Reads (next x) bytes' y) :
    Reads (reader >>= next) (bytes ++ bytes') y := by
  intro rest offset
  rw [append_assoc, StateT.run_bind, h]
  change (next x).run _ = _
  rw [h', length_append, Nat.add_assoc]

lemma last (h : Reads reader bytes x) (h' : Reads (next x) [] y) :
    Reads (reader >>= next) bytes y := by
  have hbind := h.bind h'
  rwa [append_nil] at hbind

lemma map (f : α → β) (h : Reads reader bytes x) :
    Reads (reader >>= fun a => Pure.pure (f a)) bytes (f x) :=
  h.last (.pure _)

lemma from_offset {next : Nat → Decoding.Reader β} (h : ∀ start, Reads (next start) bytes y) :
    Reads (Decoding.offset >>= next) bytes y := by
  intro rest offset
  exact h offset rest offset

end Reads

lemma reads_take (bytes : List UInt8) : Reads (Decoding.take bytes.length) bytes bytes := by
  intro rest offset
  simp [Decoding.take, StateT.run_bind]
  rfl

/-! ### Numbers -/

@[simp] lemma length_number (width n : Nat) : (Encoding.number width n).length = width := by
  induction width generalizing n with
  | zero => rfl
  | succ width ih => rw [Encoding.number, length_cons, ih]

lemma numberOf_number (width n : Nat) (h : n < 256 ^ width) :
    Decoding.numberOf (Encoding.number width n) = n := by
  induction width generalizing n with
  | zero =>
    rw [Nat.pow_zero, Nat.lt_one_iff] at h
    rw [h]
    rfl
  | succ width ih =>
    have hquot : n / 256 < 256 ^ width := by
      rw [Nat.div_lt_iff_lt_mul (by decide), ← Nat.pow_succ]
      exact h
    rw [Encoding.number, Decoding.numberOf, ih _ hquot, UInt8.toNat_ofNat']
    exact Nat.mod_add_div n 256

lemma reads_number {width n : Nat} (h : n < 256 ^ width) :
    Reads (Decoding.number width) (Encoding.number width n) n := by
  have htake := reads_take (Encoding.number width n)
  rw [length_number] at htake
  have hmap := htake.map Decoding.numberOf
  rwa [numberOf_number width n h] at hmap

lemma reads_byte {n : Nat} (h : n < 256) : Reads Decoding.byte (Encoding.byte n) n :=
  reads_number (by simpa using h)

lemma reads_word {n : Nat} (h : n < 2 ^ 32) : Reads Decoding.word (Encoding.word n) n :=
  reads_number (by simpa using h)

lemma reads_long (n : UInt64) : Reads Decoding.long (Encoding.long n) n := by
  have hnumber : Reads (Decoding.number 8) (Encoding.number 8 n.toNat) n.toNat :=
    reads_number (by simpa using n.toNat_lt)
  have hmap := hnumber.map UInt64.ofNat
  rwa [UInt64.ofNat_toNat] at hmap

lemma Reads.tagged {β : Type} {next : Nat → Decoding.Reader β} {tag : Nat} {bytes : List UInt8}
    {y : β} (htag : tag < 256) (h : Reads (next tag) bytes y) :
    Reads (Decoding.byte >>= next) (Encoding.byte tag ++ bytes) y :=
  (reads_byte htag).bind h

/-! ### Choices, sequences and text -/

lemma reads_choice {α : Type} [DecidableEq α] (what : String) {all : List α} {item : α}
    (hmem : item ∈ all) (hlen : all.length ≤ 256) :
    Reads (Decoding.choice what all) (Encoding.choice all item) item := by
  have hlt : all.idxOf item < 256 := lt_of_lt_of_le (idxOf_lt_length_of_mem hmem) hlen
  refine Reads.from_offset fun start => ?_
  refine (reads_byte hlt).last ?_
  rw [getElem?_idxOf hmem]
  exact .pure item

lemma reads_bool (value : Bool) : Reads Decoding.bool (Encoding.bool value) value := by
  have hmem : value ∈ [false, true] := by cases value <;> simp
  have h := reads_choice "bool" hmem (by decide)
  cases value <;> exact h

lemma reads_repeated {α β : Type} {element : Decoding.Reader β} {write : α → List UInt8}
    {f : α → β} {items : List α} (h : ∀ x ∈ items, Reads element (write x) (f x)) :
    Reads (Decoding.repeated element items.length) (items.flatMap write) (items.map f) := by
  induction items with
  | nil => exact .pure []
  | cons x items ih =>
    have hrest := ih fun y hy => h y (mem_cons_of_mem _ hy)
    exact (h x mem_cons_self).bind (hrest.map (f x :: ·))

lemma reads_sequence_map {α β : Type} {element : Decoding.Reader β} {write : α → List UInt8}
    {f : α → β} {items : List α} (hlen : items.length < 2 ^ 32)
    (h : ∀ x ∈ items, Reads element (write x) (f x)) :
    Reads (Decoding.sequence element) (Encoding.sequence write items) (items.map f) :=
  (reads_word hlen).bind (reads_repeated h)

lemma reads_sequence {α : Type} {element : Decoding.Reader α} {write : α → List UInt8}
    {items : List α} (hlen : items.length < 2 ^ 32)
    (h : ∀ x ∈ items, Reads element (write x) x) :
    Reads (Decoding.sequence element) (Encoding.sequence write items) items := by
  have hmap := reads_sequence_map (f := id) hlen h
  rwa [map_id] at hmap

/-- The length of a text, in bytes, fits. -/
def FitsText (text : String) : Prop :=
  (Encoding.utf8 text).length < 2 ^ 32

lemma fromUTF8?_utf8 (text : String) :
    String.fromUTF8? ⟨(Encoding.utf8 text).toArray⟩ = some text := by
  change String.fromUTF8? text.toUTF8 = some text
  rw [String.toUTF8_eq_toByteArray, String.fromUTF8?, dif_pos text.isValidUTF8]
  rfl

lemma reads_text {text : String} (h : FitsText text) :
    Reads Decoding.text (Encoding.text text) text := by
  refine (reads_word h).bind (Reads.from_offset fun start => ?_)
  refine (reads_take (Encoding.utf8 text)).last ?_
  rw [fromUTF8?_utf8]
  exact .pure text

lemma reads_value {value : Value} (h : value.id < 2 ^ 32) :
    Reads Decoding.value (Encoding.value value) value :=
  (reads_word h).map Value.mk

lemma reads_values {values : List Value} (hlen : values.length < 2 ^ 32)
    (h : ∀ v ∈ values, v.id < 2 ^ 32) : Reads Decoding.values (Encoding.values values) values :=
  reads_sequence hlen fun v hv => reads_value (h v hv)

lemma reads_block {block : Block} (h : block.id < 2 ^ 32) :
    Reads Decoding.block (Encoding.block block) block :=
  (reads_word h).map Block.mk

lemma reads_optionalBlock {block : Option Block} (h : ∀ b ∈ block, b.id + 1 < 2 ^ 32) :
    Reads Decoding.optionalBlock (Encoding.optionalBlock block) block := by
  cases block with
  | none => exact (reads_word (by decide)).last (.pure none)
  | some b => exact (reads_word (h b rfl)).last (.pure (some b))

/-- A span has offsets of 32 bits. -/
def FitsSpan (span : Span) : Prop :=
  span.stop < 2 ^ 32

lemma reads_span {span : Span} (h : FitsSpan span) :
    Reads Decoding.span (Encoding.span span) span := by
  refine (reads_word (lt_of_le_of_lt span.ordered h)).bind ((reads_word h).last ?_)
  rw [Span.ofBounds?_eq_some_iff.mpr ⟨rfl, rfl⟩]
  exact .pure span

/-! ### Types, layouts and globals -/

/-- The number in a type, if there is one. -/
def tyNumbers : Ty → List Nat
  | .agg id => [id]
  | _ => []

/-- The number of an aggregate type fits. -/
def FitsTy (ty : Ty) : Prop :=
  ∀ n ∈ tyNumbers ty, n < 2 ^ 32

lemma reads_ty {ty : Ty} (h : FitsTy ty) : Reads Decoding.ty (Encoding.ty ty) ty := by
  refine Reads.from_offset fun start => ?_
  cases ty with
  | agg id => exact Reads.tagged (by decide) ((reads_word (h id mem_cons_self)).map Ty.agg)
  | _ => exact (reads_byte (by decide)).last (.pure _)

/-- Names, counts and numbers of a layout fit into their fields of the binary form. -/
@[mk_iff]
structure FitsLayout (layout : Layout) : Prop where
  name : FitsText layout.name
  fields_length : layout.fields.length < 2 ^ 32
  fields : ∀ ty ∈ layout.fields, FitsTy ty

lemma reads_layout {layout : Layout} (h : FitsLayout layout) :
    Reads Decoding.layout (Encoding.layout layout) layout := by
  rw [Encoding.layout, append_assoc]
  have hkind : layout.kind ∈ Encoding.layoutKinds := by
    cases layout.kind <;> simp [Encoding.layoutKinds]
  refine (reads_text h.name).bind ((reads_choice _ hkind (by decide)).bind ?_)
  exact (reads_sequence h.fields_length fun ty hty => reads_ty (h.fields ty hty)).map _

def FitsConstant : Constant → Prop
  | .str text => FitsText text
  | _ => True

lemma reads_constant {constant : Constant} (h : FitsConstant constant) :
    Reads Decoding.constant (Encoding.constant constant) constant := by
  refine Reads.from_offset fun start => ?_
  cases constant with
  | zero => exact (reads_byte (by decide)).last (.pure _)
  | int value =>
    have hlong := (reads_long value.toUInt64).map fun bits => Constant.int bits.toInt64
    exact Reads.tagged (by decide) hlong
  | float bits => exact Reads.tagged (by decide) ((reads_long bits).map Constant.float)
  | bool value => exact Reads.tagged (by decide) ((reads_bool value).map Constant.bool)
  | str text => exact Reads.tagged (by decide) ((reads_text h).map Constant.str)

/-- The same for a global. -/
@[mk_iff]
structure FitsGlobal (global : Global) : Prop where
  name : FitsText global.name
  ty : FitsTy global.ty
  init : FitsConstant global.init

lemma reads_global {global : Global} (h : FitsGlobal global) :
    Reads Decoding.global (Encoding.global global) global := by
  rw [Encoding.global, append_assoc]
  exact (reads_text h.name).bind ((reads_ty h.ty).bind ((reads_constant h.init).map _))

/-! ### Instructions -/

/-- The numbers in an instruction, values and blocks apart. -/
def instNumbers : Inst → List Nat
  | .undef ty | .binary _ ty _ _ | .unary _ ty _ | .cast _ ty _ | .alloca ty _ | .load ty _
  | .call ty _ _ | .phi ty _ => tyNumbers ty
  | .param ty position | .extractField ty _ position => position :: tyNumbers ty
  | .fieldPtr agg _ position => [agg, position]
  | .new agg | .makeAgg agg _ => [agg]
  | _ => []

/-- The texts in an instruction. -/
def instTexts : Inst → List String
  | .sconst text | .globalAddr text | .call _ text _ => [text]
  | _ => []

/-- An instruction fits, its references apart. -/
@[mk_iff]
structure FitsInst (inst : Inst) : Prop where
  numbers : ∀ n ∈ instNumbers inst, n < 2 ^ 32
  texts : ∀ text ∈ instTexts inst, FitsText text
  operands_length : inst.operands.length < 2 ^ 32

lemma reads_inst {inst : Inst} (h : FitsInst inst) (hvalues : ∀ v ∈ inst.operands, v.id < 2 ^ 32)
    (hblocks : ∀ b ∈ inst.successors, b.id < 2 ^ 32) :
    Reads Decoding.inst (Encoding.inst inst) inst := by
  obtain ⟨hnumbers, htexts, hlen⟩ := h
  refine Reads.from_offset fun start => ?_
  cases inst with
  | iconst value =>
    have hlong := (reads_long value.toUInt64).map fun bits => Inst.iconst bits.toInt64
    exact Reads.tagged (by decide) hlong
  | fconst bits => exact Reads.tagged (by decide) ((reads_long bits).map Inst.fconst)
  | bconst value => exact Reads.tagged (by decide) ((reads_bool value).map Inst.bconst)
  | sconst text =>
    exact Reads.tagged (by decide) ((reads_text (htexts text mem_cons_self)).map Inst.sconst)
  | undef ty => exact Reads.tagged (by decide) ((reads_ty hnumbers).map Inst.undef)
  | param ty position =>
    rw [Encoding.inst, append_assoc]
    refine Reads.tagged (by decide) ((reads_ty fun n hn => ?_).bind ?_)
    · exact hnumbers n (mem_cons_of_mem _ hn)
    · exact (reads_word (hnumbers position mem_cons_self)).map _
  | binary op ty lhs rhs =>
    simp only [Encoding.inst, append_assoc]
    refine Reads.tagged (by decide) ((reads_choice _ (by cases op <;> decide) (by decide)).bind ?_)
    refine (reads_ty hnumbers).bind ((reads_value (hvalues lhs ?_)).bind ?_)
    · simp [Inst.operands]
    · exact (reads_value (hvalues rhs (by simp [Inst.operands]))).map _
  | unary op ty operand =>
    simp only [Encoding.inst, append_assoc]
    refine Reads.tagged (by decide) ((reads_choice _ (by cases op <;> decide) (by decide)).bind ?_)
    refine (reads_ty hnumbers).bind ?_
    exact (reads_value (hvalues operand (by simp [Inst.operands]))).map _
  | icmp predicate lhs rhs =>
    simp only [Encoding.inst, append_assoc]
    refine Reads.tagged (by decide)
      ((reads_choice _ (by cases predicate <;> decide) (by decide)).bind ?_)
    refine (reads_value (hvalues lhs (by simp [Inst.operands]))).bind ?_
    exact (reads_value (hvalues rhs (by simp [Inst.operands]))).map _
  | fcmp predicate lhs rhs =>
    simp only [Encoding.inst, append_assoc]
    refine Reads.tagged (by decide)
      ((reads_choice _ (by cases predicate <;> decide) (by decide)).bind ?_)
    refine (reads_value (hvalues lhs (by simp [Inst.operands]))).bind ?_
    exact (reads_value (hvalues rhs (by simp [Inst.operands]))).map _
  | cast op target operand =>
    simp only [Encoding.inst, append_assoc]
    refine Reads.tagged (by decide) ((reads_choice _ (by cases op <;> decide) (by decide)).bind ?_)
    refine (reads_ty hnumbers).bind ?_
    exact (reads_value (hvalues operand (by simp [Inst.operands]))).map _
  | alloca ty pinned =>
    simp only [Encoding.inst, append_assoc]
    exact Reads.tagged (by decide) ((reads_ty hnumbers).bind ((reads_bool pinned).map _))
  | load ty address =>
    simp only [Encoding.inst, append_assoc]
    refine Reads.tagged (by decide) ((reads_ty hnumbers).bind ?_)
    exact (reads_value (hvalues address (by simp [Inst.operands]))).map _
  | store address stored =>
    simp only [Encoding.inst, append_assoc]
    refine Reads.tagged (by decide)
      ((reads_value (hvalues address (by simp [Inst.operands]))).bind ?_)
    exact (reads_value (hvalues stored (by simp [Inst.operands]))).map _
  | fieldPtr agg address position =>
    simp only [Encoding.inst, append_assoc]
    refine Reads.tagged (by decide) ((reads_word (hnumbers agg (by simp [instNumbers]))).bind ?_)
    refine (reads_value (hvalues address (by simp [Inst.operands]))).bind ?_
    exact (reads_word (hnumbers position (by simp [instNumbers]))).map _
  | new agg =>
    exact Reads.tagged (by decide) ((reads_word (hnumbers agg mem_cons_self)).map _)
  | globalAddr name =>
    exact Reads.tagged (by decide) ((reads_text (htexts name mem_cons_self)).map _)
  | makeAgg agg fields =>
    simp only [Encoding.inst, append_assoc]
    refine Reads.tagged (by decide) ((reads_word (hnumbers agg mem_cons_self)).bind ?_)
    exact (reads_values hlen hvalues).map _
  | extractField ty aggregate position =>
    simp only [Encoding.inst, append_assoc]
    refine Reads.tagged (by decide) ((reads_ty fun n hn => ?_).bind ?_)
    · exact hnumbers n (mem_cons_of_mem _ hn)
    · refine (reads_value (hvalues aggregate (by simp [Inst.operands]))).bind ?_
      exact (reads_word (hnumbers position mem_cons_self)).map _
  | call ty callee args =>
    simp only [Encoding.inst, append_assoc]
    refine Reads.tagged (by decide) ((reads_ty hnumbers).bind ?_)
    exact (reads_text (htexts callee mem_cons_self)).bind ((reads_values hlen hvalues).map _)
  | phi ty args =>
    simp only [Encoding.inst, append_assoc]
    exact Reads.tagged (by decide) ((reads_ty hnumbers).bind ((reads_values hlen hvalues).map _))
  | br target =>
    exact Reads.tagged (by decide) ((reads_block (hblocks target mem_cons_self)).map _)
  | condBr condition thenBlock elseBlock =>
    simp only [Encoding.inst, append_assoc]
    refine Reads.tagged (by decide)
      ((reads_value (hvalues condition (by simp [Inst.operands]))).bind ?_)
    refine (reads_block (hblocks thenBlock (by simp [Inst.successors]))).bind ?_
    exact (reads_block (hblocks elseBlock (by simp [Inst.successors]))).map _
  | ret value =>
    cases value with
    | none => exact Reads.tagged (by decide) ((reads_bool false).last (.pure _))
    | some result =>
      simp only [Encoding.inst, append_assoc]
      refine Reads.tagged (by decide) ((reads_bool true).bind ?_)
      exact (reads_value (hvalues result (by simp [Inst.operands]))).map _
  | unreachable => exact (reads_byte (by decide)).last (.pure _)

/-! ### Functions -/

/-- The same for a value. -/
@[mk_iff]
structure FitsValue (info : ValueInfo) : Prop where
  inst : FitsInst info.inst
  span : FitsSpan info.span
  node : info.node < 2 ^ 32

/-- The same for a block. -/
@[mk_iff]
structure FitsBlock (info : BlockInfo) : Prop where
  name : FitsText info.name
  preds_length : info.preds.length < 2 ^ 32
  insts_length : info.insts.length < 2 ^ 32

/-- The same for the tags of a function. -/
@[mk_iff]
structure FitsTags (tags : List Tag) : Prop where
  length : tags.length < 2 ^ 32
  texts : ∀ tag ∈ tags, FitsText tag.key ∧ FitsText tag.text

/-- A function fits: all its text and sequences are short enough, and so are its numbers. -/
@[mk_iff]
structure FitsFunction (f : Function) : Prop where
  name : FitsText f.name
  ret : FitsTy f.ret
  span : FitsSpan f.span
  node : f.node < 2 ^ 32
  values_size : f.values.size < 2 ^ 32
  values : ∀ info ∈ f.values.toList, FitsValue info
  blocks_size : f.blocks.size < 2 ^ 32
  blocks : ∀ info ∈ f.blocks.toList, FitsBlock info
  params_length : f.params.length < 2 ^ 32
  layout_length : f.layout.length < 2 ^ 32
  tags_length : f.tags.length < 2 ^ 32
  tags : ∀ entry ∈ f.tags, FitsTags entry.2

/-- The tags of a function are listed in increasing order of values, each value once. -/
def TagsOrdered (f : Function) : Prop :=
  f.tags.Pairwise fun a b => a.1.id < b.1.id

lemma dangling?_eq_none {f : Function} (h : InRange f) :
    Decoding.dangling? f = none := by
  have hvalues : f.values.toList.findSome? (fun info =>
      if !info.inst.operands.all (fun v => f.values.holds v.id) then some "value"
      else if !info.inst.successors.all (fun b => f.blocks.holds b.id) ||
        !info.block.all (fun b => f.blocks.holds b.id) then some "block"
      else none) = none := by
    refine findSome?_eq_none_iff.mpr fun info hinfo => ?_
    have h1 : (info.inst.operands.all fun v => f.values.holds v.id) = true :=
      all_eq_true.mpr fun v hv => decide_eq_true (h.operands info hinfo v hv)
    have h2 : (info.inst.successors.all fun b => f.blocks.holds b.id) = true :=
      all_eq_true.mpr fun b hb => decide_eq_true (h.successors info hinfo b hb)
    have h3 : (info.block.all fun b => f.blocks.holds b.id) = true :=
      Option.all_eq_true _ _ |>.mpr fun b hb => decide_eq_true (h.homes info hinfo b hb)
    simp [h1, h2, h3]
  have hblocks : f.blocks.toList.findSome? (fun info =>
      if !info.preds.all (fun b => f.blocks.holds b.id) then some "block"
      else if !info.insts.all (fun v => f.values.holds v.id) then some "value"
      else none) = none := by
    refine findSome?_eq_none_iff.mpr fun info hinfo => ?_
    have h1 : (info.preds.all fun b => f.blocks.holds b.id) = true :=
      all_eq_true.mpr fun b hb => decide_eq_true (h.preds info hinfo b hb)
    have h2 : (info.insts.all fun v => f.values.holds v.id) = true :=
      all_eq_true.mpr fun v hv => decide_eq_true (h.insts info hinfo v hv)
    simp [h1, h2]
  have hparams : (f.params.all fun v => f.values.holds v.id) = true :=
    all_eq_true.mpr fun v hv => decide_eq_true (h.params v hv)
  have htags : ((f.tags.map Prod.fst).all fun v => f.values.holds v.id) = true := by
    refine all_eq_true.mpr fun v hv => ?_
    obtain ⟨entry, hentry, rfl⟩ := mem_map.mp hv
    exact decide_eq_true (h.tags entry hentry)
  have hlayout : (f.layout.all fun b => f.blocks.holds b.id) = true :=
    all_eq_true.mpr fun b hb => decide_eq_true (h.layout b hb)
  rw [Decoding.dangling?, hvalues, hblocks, hparams, htags, hlayout]
  rfl

lemma insertTags_append {before : List (Value × List Tag)} {entry : Value × List Tag}
    (h : ∀ other ∈ before, other.1.id < entry.1.id) :
    Decoding.insertTags before entry = before ++ [entry] := by
  induction before with
  | nil => rfl
  | cons other before ih =>
    have hlt := h other mem_cons_self
    have hne : entry.1 ≠ other.1 := fun heq => by rw [heq] at hlt; exact lt_irrefl _ hlt
    rw [Decoding.insertTags, if_neg hne, if_neg (by omega),
      ih fun x hx => h x (mem_cons_of_mem _ hx)]
    rfl

lemma foldl_insertTags {tags : List (Value × List Tag)}
    (h : tags.Pairwise fun a b => a.1.id < b.1.id) : tags.foldl Decoding.insertTags [] = tags := by
  induction tags using List.reverseRecOn with
  | nil => rfl
  | append_singleton tags entry ih =>
    obtain ⟨hbefore, -, hlast⟩ := pairwise_append.mp h
    rw [foldl_append, ih hbefore]
    exact insertTags_append fun other hother => hlast other hother entry mem_cons_self

section Function

variable {f : Function}

lemma reads_valueInfo (hfits : FitsFunction f) (h : InRange f) {info : ValueInfo}
    (hinfo : info ∈ f.values.toList) :
    Reads Decoding.valueInfo (Encoding.valueInfo info) info := by
  have hvalue := hfits.values info hinfo
  have hsize := hfits.values_size
  have hblocks := hfits.blocks_size
  simp only [Encoding.valueInfo, append_assoc]
  refine (reads_inst hvalue.inst (fun v hv => ?_) fun b hb => ?_).bind
    ((reads_optionalBlock fun b hb => ?_).bind ((reads_span hvalue.span).bind
      ((reads_word hvalue.node).map _)))
  · exact (h.operands info hinfo v hv).trans hsize
  · exact (h.successors info hinfo b hb).trans hblocks
  · have := h.homes info hinfo b hb
    omega

lemma reads_blockInfo (hfits : FitsFunction f) (h : InRange f) {info : BlockInfo}
    (hinfo : info ∈ f.blocks.toList) :
    Reads Decoding.blockInfo (Encoding.blockInfo info) info := by
  have hblock := hfits.blocks info hinfo
  simp only [Encoding.blockInfo, append_assoc]
  refine (reads_text hblock.name).bind ((reads_sequence hblock.preds_length fun b hb => ?_).bind
    ((reads_values hblock.insts_length fun v hv => ?_).map _))
  · exact reads_block ((h.preds info hinfo b hb).trans hfits.blocks_size)
  · exact (h.insts info hinfo v hv).trans hfits.values_size

lemma reads_tag {tag : Tag} (hkey : FitsText tag.key) (htext : FitsText tag.text) :
    Reads Decoding.tag (Encoding.tag tag) tag :=
  (reads_text hkey).bind ((reads_text htext).map _)

lemma reads_tagged (hfits : FitsFunction f) (h : InRange f)
    {entry : Value × List Tag} (hentry : entry ∈ f.tags) :
    Reads Decoding.tagged (Encoding.tagged entry) entry := by
  have htags := hfits.tags entry hentry
  refine (reads_value ((h.tags entry hentry).trans hfits.values_size)).bind
    ((reads_sequence htags.length fun tag htag => ?_).map _)
  exact reads_tag (htags.texts tag htag).1 (htags.texts tag htag).2

/-- The record of a function, with its tags as they are listed. -/
def listedFunction : Decoding.Reader Function := do
  let name ← Decoding.text
  let ret ← Decoding.ty
  let place ← Decoding.span
  let node ← Decoding.word
  let valueInfos ← Decoding.sequence Decoding.valueInfo
  let blockInfos ← Decoding.sequence Decoding.blockInfo
  let params ← Decoding.values
  let layout ← Decoding.sequence Decoding.block
  let tags ← Decoding.sequence Decoding.tagged
  return { name, ret, span := place, node, params, layout, tags
           values := valueInfos.toArray
           blocks := blockInfos.toArray }

/-- Tags in the order of values; where a value is listed twice, the last list counts. -/
def settled (f : Function) : Function :=
  { f with tags := f.tags.foldl Decoding.insertTags [] }

/-- Reading a function is reading its record and then settling it. -/
lemma function_eq_listed : Decoding.function = listedFunction >>= fun f =>
    match Decoding.dangling? (settled f) with
    | some what => throw (.danglingReference f.name what)
    | none => pure (settled f) := by
  simp only [Decoding.function, listedFunction, bind_assoc, pure_bind]
  rfl

lemma settled_eq_self (h : TagsOrdered f) : settled f = f := by
  rw [settled, foldl_insertTags h]

lemma reads_listedFunction (hfits : FitsFunction f) (h : InRange f) :
    Reads listedFunction (Encoding.function f) f := by
  have hvalues := hfits.values_size
  have hblocks := hfits.blocks_size
  simp only [Encoding.function, append_assoc]
  refine (reads_text hfits.name).bind ((reads_ty hfits.ret).bind ((reads_span hfits.span).bind
    ((reads_word hfits.node).bind ?_)))
  refine (reads_sequence hvalues fun info => reads_valueInfo hfits h).bind
    ((reads_sequence hblocks fun info => reads_blockInfo hfits h).bind ?_)
  refine (reads_values hfits.params_length fun v hv => ?_).bind
    ((reads_sequence hfits.layout_length fun b hb => ?_).bind ?_)
  · exact (h.params v hv).trans hfits.values_size
  · exact reads_block ((h.layout b hb).trans hfits.blocks_size)
  · exact (reads_sequence hfits.tags_length fun entry => reads_tagged hfits h).map _

lemma reads_function (hfits : FitsFunction f) (h : InRange f)
    (htags : TagsOrdered f) :
    Reads Decoding.function (Encoding.function f) f := by
  rw [function_eq_listed]
  refine (reads_listedFunction hfits h).last ?_
  rw [settled_eq_self htags, dangling?_eq_none h]
  exact .pure f

end Function

/-! ### Modules -/

/-- Whatever a module holds fits into the fields of the binary form. -/
@[mk_iff]
structure FitsModule (module : Module) : Prop where
  name : FitsText module.name
  layouts_size : module.types.layouts.size < 2 ^ 32
  layouts : ∀ layout ∈ module.types.layouts.toList, FitsLayout layout
  globals_size : module.globals.size < 2 ^ 32
  globals : ∀ global ∈ module.globals.toList, FitsGlobal global
  functions_size : module.functions.size < 2 ^ 32
  functions : ∀ f ∈ module.functions.toList, FitsFunction f

section Decidable

instance : DecidablePred FitsText :=
  fun _ => inferInstanceAs (Decidable (_ < _))

instance : DecidablePred FitsSpan :=
  fun _ => inferInstanceAs (Decidable (_ < _))

instance : DecidablePred FitsTy :=
  fun ty => inferInstanceAs (Decidable (∀ n ∈ tyNumbers ty, _))

instance : DecidablePred FitsLayout :=
  fun layout => decidable_of_iff' _ (fitsLayout_iff layout)

instance : DecidablePred FitsConstant
  | .str text => inferInstanceAs (Decidable (FitsText text))
  | .zero | .int _ | .float _ | .bool _ => .isTrue trivial

instance : DecidablePred FitsGlobal :=
  fun global => decidable_of_iff' _ (fitsGlobal_iff global)

instance : DecidablePred FitsInst :=
  fun inst => decidable_of_iff' _ (fitsInst_iff inst)

instance : DecidablePred FitsValue :=
  fun info => decidable_of_iff' _ (fitsValue_iff info)

instance : DecidablePred FitsBlock :=
  fun info => decidable_of_iff' _ (fitsBlock_iff info)

instance : DecidablePred FitsTags :=
  fun tags => decidable_of_iff' _ (fitsTags_iff tags)

instance : DecidablePred FitsFunction :=
  fun f => decidable_of_iff' _ (fitsFunction_iff f)

instance : DecidablePred FitsModule :=
  fun module => decidable_of_iff' _ (fitsModule_iff module)

end Decidable

/-- The module that is read: interning the layouts in order gives the table. -/
def reinterned (module : Module) : Module :=
  { module with types := .ofList module.types.layouts.toList }

/-- A module that fits and whose functions refer to nothing outside of them is read back, with its
layouts interned anew. -/
theorem decode_encode_reinterned {module : Module} (hfits : FitsModule module)
    (hrange : ∀ f ∈ module.functions.toList, InRange f)
    (htags : ∀ f ∈ module.functions.toList, TagsOrdered f) :
    Module.decode module.encode = .ok (reinterned module) := by
  have hbody : Reads Decoding.body (Encoding.body module) (reinterned module) := by
    simp only [Encoding.body, append_assoc]
    have hlayouts := hfits.layouts_size
    have hglobals := hfits.globals_size
    have hfunctions := hfits.functions_size
    refine (reads_text hfits.name).bind
      ((reads_sequence hlayouts fun layout hl => reads_layout (hfits.layouts layout hl)).bind ?_)
    refine (reads_sequence hglobals fun global hg => reads_global (hfits.globals global hg)).bind ?_
    exact (reads_sequence hfunctions fun f hf =>
      reads_function (hfits.functions f hf) (hrange f hf) (htags f hf)).map _
  have hmodule : Reads Decoding.module module.encode (reinterned module) := by
    refine (reads_take Encoding.magic).bind ?_
    exact (reads_number (by decide)).bind hbody
  have hrun := hmodule [] 0
  rw [append_nil] at hrun
  rw [Module.decode, hrun]
  rfl

end SsaLowering.Proofs
