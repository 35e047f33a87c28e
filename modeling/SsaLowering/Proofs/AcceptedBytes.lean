import SsaLowering.Proofs.ModuleRoundTrip

/-!
# Bytes that are accepted

Whatever a reader accepts is what the writer makes of the result, with nothing lost but the order of
tags and layouts that are listed twice. It takes these bytes whatever follows them, and it needs all
of them: of a part of them it asks for more. Both are shown reader by reader, over all that can be
read and not only over what was written.
-/

namespace SsaLowering.Proofs

open Ir List

/-! ### Readers and what they accept -/

/-- A reader that has come to some offset takes exactly these bytes for a value: whatever follows
them is left, and a part of them is not enough. -/
structure Takes {α : Type} (reader : Decoding.Reader α) (offset : Nat) (bytes : List UInt8) (x : α) :
    Prop where
  follows : ∀ rest, reader.run ⟨bytes ++ rest, offset⟩ = .ok (x, ⟨rest, offset + bytes.length⟩)
  needs : ∀ part, part <+: bytes → part ≠ bytes →
    ∃ stop, reader.run ⟨part, offset⟩ = .error (.unexpectedEnd stop)

/-- Wherever a reader accepts, it takes bytes that are good for what it gives. -/
def Accepts {α : Type} (reader : Decoding.Reader α) (good : List UInt8 → α → Prop) : Prop :=
  ∀ cursor x next, reader.run cursor = .ok (x, next) →
    ∃ bytes, cursor.rest = bytes ++ next.rest ∧ Takes reader cursor.offset bytes x ∧ good bytes x

/-- A reader accepts only what is written for values that fit. -/
abbrev Undoes {α : Type} (reader : Decoding.Reader α) (write : α → List UInt8) (fits : α → Prop) :
    Prop :=
  Accepts reader fun bytes x => bytes = write x ∧ fits x

lemma Takes.bind {α β : Type} {reader : Decoding.Reader α} {next : α → Decoding.Reader β}
    {offset : Nat} {bytes bytes' : List UInt8} {x : α} {y : β} (h : Takes reader offset bytes x)
    (h' : Takes (next x) (offset + bytes.length) bytes' y) :
    Takes (reader >>= next) offset (bytes ++ bytes') y where
  follows rest := by
    rw [append_assoc, StateT.run_bind, h.follows]
    change (next x).run _ = _
    rw [h'.follows, length_append, Nat.add_assoc]
  needs part hpart hne := by
    rw [StateT.run_bind]
    by_cases hbytes : bytes <+: part
    · obtain ⟨part', rfl⟩ := hbytes
      rw [List.prefix_append_right_inj] at hpart
      obtain ⟨stop, hstop⟩ := h'.needs part' hpart fun heq => hne (heq ▸ rfl)
      rw [h.follows]
      exact ⟨stop, hstop⟩
    · have hshort : part <+: bytes :=
        (List.prefix_or_prefix_of_prefix hpart (List.prefix_append ..)).resolve_right hbytes
      obtain ⟨stop, hstop⟩ := h.needs part hshort fun heq => hbytes (heq ▸ List.prefix_rfl)
      rw [hstop]
      exact ⟨stop, rfl⟩

namespace Accepts

variable {α β : Type} {reader : Decoding.Reader α} {next : α → Decoding.Reader β}
  {P P' : List UInt8 → α → Prop} {Q : List UInt8 → β → Prop} {write : α → List UInt8}
  {fits : α → Prop}

lemma pure {x : α} (h : P [] x) : Accepts (Pure.pure x) P := by
  rintro cursor _ _ ⟨⟩
  refine ⟨[], rfl, ⟨fun _ => rfl, fun part hpart hne => ?_⟩, h⟩
  exact absurd (List.prefix_nil.mp hpart) hne

lemma throw {error : DecodeError} : Accepts (MonadExcept.throw error) P := by
  rintro cursor _ _ ⟨⟩

lemma mono (h : Accepts reader P) (hgood : ∀ bytes x, P bytes x → P' bytes x) :
    Accepts reader P' := by
  intro cursor x next hrun
  obtain ⟨bytes, hbytes, htakes, hP⟩ := h cursor x next hrun
  exact ⟨bytes, hbytes, htakes, hgood bytes x hP⟩

lemma bind (h : Accepts reader P)
    (hnext : ∀ bytes x, P bytes x → Accepts (next x) fun bytes' y => Q (bytes ++ bytes') y) :
    Accepts (reader >>= next) Q := by
  intro cursor y last hrun
  obtain ⟨⟨x, middle⟩, hfirst, hsecond⟩ := bind_eq_ok_iff.mp hrun
  obtain ⟨bytes, hbytes, htakes, hgood⟩ := h cursor x middle hfirst
  have hmiddle : middle.offset = cursor.offset + bytes.length := by
    have hfollows := htakes.follows middle.rest
    rw [← hbytes] at hfollows
    injection hfollows.symm.trans hfirst with heq
    rw [← congrArg (fun pair => pair.2.offset) heq]
  obtain ⟨bytes', hbytes', htakes', hgood'⟩ := hnext bytes x hgood middle y last hsecond
  rw [hmiddle] at htakes'
  refine ⟨bytes ++ bytes', ?_, htakes.bind htakes', hgood'⟩
  rw [hbytes, hbytes', append_assoc]

lemma field (h : Undoes reader write fits)
    (hnext : ∀ x, fits x → Accepts (next x) fun bytes y => Q (write x ++ bytes) y) :
    Accepts (reader >>= next) Q := by
  refine h.bind fun bytes x hx => ?_
  rw [hx.1]
  exact hnext x hx.2

lemma last {f : α → β} (h : Undoes reader write fits) (hgood : ∀ x, fits x → Q (write x) (f x)) :
    Accepts (reader >>= fun x => Pure.pure (f x)) Q := by
  refine h.field fun x hx => .pure ?_
  rw [List.append_nil]
  exact hgood x hx

lemma from_offset {next : Nat → Decoding.Reader β} (h : ∀ start, Accepts (next start) Q) :
    Accepts (Decoding.offset >>= next) Q := by
  intro cursor y last hrun
  obtain ⟨bytes, hbytes, htakes, hgood⟩ := h cursor.offset cursor y last hrun
  exact ⟨bytes, hbytes, ⟨htakes.follows, htakes.needs⟩, hgood⟩

end Accepts

lemma run_take (count : Nat) (cursor : Decoding.Cursor) : (Decoding.take count).run cursor =
    if cursor.rest.length < count then .error (.unexpectedEnd cursor.offset)
    else .ok (cursor.rest.take count, ⟨cursor.rest.drop count, cursor.offset + count⟩) := by
  unfold Decoding.take
  by_cases h : cursor.rest.length < count
  · simp [StateT.run_bind, h]
    rfl
  · simp [StateT.run_bind, h]
    rfl

lemma accepts_take (count : Nat) :
    Accepts (Decoding.take count) fun bytes x => bytes = x ∧ x.length = count := by
  intro cursor x next hrun
  rw [run_take] at hrun
  split_ifs at hrun with hcount
  cases hrun
  have hlength : (cursor.rest.take count).length = count := by
    rw [length_take]
    omega
  refine ⟨cursor.rest.take count, (take_append_drop ..).symm, ⟨fun rest => ?_, ?_⟩, rfl, hlength⟩
  · have htake := reads_take (cursor.rest.take count) rest cursor.offset
    rwa [hlength] at htake ⊢
  · intro part hpart hne
    have hshort : part.length < count := by
      have hle := hpart.length_le
      have hneq : part.length ≠ (cursor.rest.take count).length := fun heq =>
        hne (hpart.eq_of_length heq)
      omega
    exact ⟨cursor.offset, by rw [run_take, if_pos hshort]⟩

/-! ### Numbers -/

lemma number_numberOf (bytes : List UInt8) :
    Encoding.number bytes.length (Decoding.numberOf bytes) = bytes := by
  induction bytes with
  | nil => rfl
  | cons b bytes ih =>
    have hb := b.toNat_lt
    rw [length_cons, Encoding.number, Decoding.numberOf]
    congr 1
    · apply UInt8.toNat_inj.mp
      rw [UInt8.toNat_ofNat']
      omega
    · rw [show (b.toNat + 256 * Decoding.numberOf bytes) / 256 = Decoding.numberOf bytes by omega]
      exact ih

lemma numberOf_lt (bytes : List UInt8) : Decoding.numberOf bytes < 256 ^ bytes.length := by
  induction bytes with
  | nil => exact Nat.one_pos
  | cons b bytes ih =>
    have hb := b.toNat_lt
    rw [Decoding.numberOf, length_cons, Nat.pow_succ]
    omega

lemma undoes_number (width : Nat) :
    Undoes (Decoding.number width) (Encoding.number width) (· < 256 ^ width) := by
  refine (accepts_take width).bind fun bytes x ⟨hbytes, hlength⟩ => .pure ?_
  subst hbytes
  rw [List.append_nil, ← hlength]
  exact ⟨(number_numberOf bytes).symm, numberOf_lt bytes⟩

lemma undoes_byte : Undoes Decoding.byte Encoding.byte (· < 256) :=
  undoes_number 1

lemma undoes_word : Undoes Decoding.word Encoding.word (· < 2 ^ 32) :=
  undoes_number 4

lemma undoes_long : Undoes Decoding.long Encoding.long fun _ => True := by
  refine (undoes_number 8).last fun n hn => ⟨?_, trivial⟩
  rw [Encoding.long, UInt64.toNat_ofNat', Nat.mod_eq_of_lt (by simpa using hn)]

/-! ### Choices, sequences and text -/

lemma undoes_choice {α : Type} [DecidableEq α] (what : String) {all : List α} (hnodup : all.Nodup) :
    Undoes (Decoding.choice what all) (Encoding.choice all) fun _ => True := by
  refine .from_offset fun start => undoes_byte.field fun tag _ => ?_
  split
  · next item hitem =>
    obtain ⟨hlt, hget⟩ := List.getElem?_eq_some_iff.mp hitem
    refine .pure ⟨?_, trivial⟩
    rw [List.append_nil, Encoding.choice, ← hget, hnodup.idxOf_getElem]
  · exact .throw

lemma undoes_bool : Undoes Decoding.bool Encoding.bool fun _ => True := by
  refine (undoes_choice "bool" (by decide)).mono fun bytes value h => ⟨h.1.trans ?_, trivial⟩
  cases value <;> rfl

/-- What a number of elements are read from, each of them from what is written for another. -/
lemma accepts_repeated {α β : Type} {element : Decoding.Reader β} {write : α → List UInt8}
    {fits : α → Prop} {f : α → β}
    (h : Accepts element fun bytes y => ∃ x, bytes = write x ∧ fits x ∧ y = f x) (count : Nat) :
    Accepts (Decoding.repeated element count) fun bytes items => ∃ listed : List α,
      bytes = listed.flatMap write ∧ items = listed.map f ∧ listed.length = count ∧
      ∀ x ∈ listed, fits x := by
  induction count with
  | zero => exact .pure ⟨[], rfl, rfl, rfl, nofun⟩
  | succ count ih =>
    refine h.bind ?_
    rintro _ _ ⟨x, rfl, hx, rfl⟩
    refine ih.bind ?_
    rintro _ _ ⟨listed, rfl, rfl, rfl, hlisted⟩
    refine .pure ⟨x :: listed, ?_, rfl, rfl, forall_mem_cons.mpr ⟨hx, hlisted⟩⟩
    rw [List.append_nil, flatMap_cons]

lemma accepts_sequence {α β : Type} {element : Decoding.Reader β} {write : α → List UInt8}
    {fits : α → Prop} {f : α → β}
    (h : Accepts element fun bytes y => ∃ x, bytes = write x ∧ fits x ∧ y = f x) :
    Accepts (Decoding.sequence element) fun bytes items => ∃ listed : List α,
      bytes = Encoding.sequence write listed ∧ items = listed.map f ∧ listed.length < 2 ^ 32 ∧
      ∀ x ∈ listed, fits x := by
  refine undoes_word.field fun count hcount => (accepts_repeated h count).mono ?_
  rintro _ _ ⟨listed, rfl, rfl, rfl, hlisted⟩
  exact ⟨listed, rfl, rfl, hcount, hlisted⟩

lemma undoes_sequence {α : Type} {element : Decoding.Reader α} {write : α → List UInt8}
    {fits : α → Prop} (h : Undoes element write fits) :
    Undoes (Decoding.sequence element) (Encoding.sequence write)
      fun items => items.length < 2 ^ 32 ∧ ∀ x ∈ items, fits x := by
  have hself : Accepts element fun bytes y => ∃ x, bytes = write x ∧ fits x ∧ y = id x :=
    h.mono fun _ x hx => ⟨x, hx.1, hx.2, rfl⟩
  refine (accepts_sequence hself).mono ?_
  rintro _ _ ⟨listed, rfl, rfl, hlength, hlisted⟩
  rw [map_id]
  exact ⟨rfl, hlength, hlisted⟩

lemma utf8_fromUTF8? {bytes : List UInt8} {content : String}
    (h : String.fromUTF8? ⟨bytes.toArray⟩ = some content) : Encoding.utf8 content = bytes := by
  rw [String.fromUTF8?] at h
  split_ifs at h with hvalid
  cases h
  rfl

lemma undoes_text : Undoes Decoding.text Encoding.text FitsText := by
  refine undoes_word.field fun length hlength => .from_offset fun start => ?_
  refine (accepts_take length).bind fun bytes x ⟨hbytes, hcount⟩ => ?_
  subst hbytes hcount
  split
  · next content hcontent =>
    have hutf8 := utf8_fromUTF8? hcontent
    refine .pure ⟨?_, ?_⟩
    · rw [Encoding.text, hutf8, List.append_nil]
    · rw [FitsText, hutf8]
      exact hlength
  · exact .throw

lemma undoes_value : Undoes Decoding.value Encoding.value fun _ => True :=
  undoes_word.last fun _ _ => ⟨rfl, trivial⟩

lemma undoes_values : Undoes Decoding.values Encoding.values (·.length < 2 ^ 32) :=
  (undoes_sequence undoes_value).mono fun _ _ h => ⟨h.1, h.2.1⟩

lemma undoes_block : Undoes Decoding.block Encoding.block fun _ => True :=
  undoes_word.last fun _ _ => ⟨rfl, trivial⟩

lemma undoes_optionalBlock : Undoes Decoding.optionalBlock Encoding.optionalBlock fun _ => True := by
  refine undoes_word.field fun n _ => ?_
  split
  · exact .pure ⟨List.append_nil _, trivial⟩
  · exact .pure ⟨List.append_nil _, trivial⟩

lemma undoes_span : Undoes Decoding.span Encoding.span FitsSpan := by
  refine undoes_word.field fun start _ => undoes_word.field fun stop hstop => ?_
  split
  · next span hspan =>
    obtain ⟨rfl, rfl⟩ := Span.ofBounds?_eq_some_iff.mp hspan
    exact .pure ⟨by rw [List.append_nil, Encoding.span], hstop⟩
  · exact .throw

/-! ### Types, layouts and globals -/

lemma undoes_ty : Undoes Decoding.ty Encoding.ty FitsTy := by
  refine .from_offset fun start => undoes_byte.field fun tag _ => ?_
  split
  case h_6 => exact undoes_word.last fun id hid => ⟨rfl, by simpa [FitsTy, tyNumbers] using hid⟩
  case h_7 => exact .throw
  all_goals exact .pure ⟨List.append_nil _, nofun⟩

lemma undoes_layout : Undoes Decoding.layout Encoding.layout FitsLayout := by
  refine undoes_text.field fun name hname => (undoes_choice _ (by decide)).field fun kind _ => ?_
  refine (undoes_sequence undoes_ty).last fun fields ⟨hlength, hfields⟩ => ⟨?_, hname, hlength, hfields⟩
  rw [Encoding.layout, append_assoc]

lemma undoes_constant : Undoes Decoding.constant Encoding.constant FitsConstant := by
  refine .from_offset fun start => undoes_byte.field fun tag _ => ?_
  split
  case h_1 => exact .pure ⟨List.append_nil _, trivial⟩
  case h_2 =>
    refine undoes_long.last fun bits _ => ⟨?_, trivial⟩
    rw [Encoding.constant, UInt64.toUInt64_toInt64]
  case h_3 => exact undoes_long.last fun bits _ => ⟨rfl, trivial⟩
  case h_4 => exact undoes_bool.last fun value _ => ⟨rfl, trivial⟩
  case h_5 => exact undoes_text.last fun text htext => ⟨rfl, htext⟩
  case h_6 => exact .throw

lemma undoes_global : Undoes Decoding.global Encoding.global FitsGlobal := by
  refine undoes_text.field fun name hname => undoes_ty.field fun ty hty => ?_
  refine undoes_constant.last fun init hinit => ⟨?_, hname, hty, hinit⟩
  rw [Encoding.global, append_assoc]

/-! ### Instructions -/

lemma undoes_inst : Undoes Decoding.inst Encoding.inst FitsInst := by
  have hnumbers {ty : Ty} (hty : FitsTy ty) {n : Nat} (hn : n < 2 ^ 32) :
      ∀ m ∈ n :: tyNumbers ty, m < 2 ^ 32 := forall_mem_cons.mpr ⟨hn, hty⟩
  have hnone {α : Type} {P : α → Prop} : ∀ x ∈ ([] : List α), P x := forall_mem_nil P
  refine .from_offset fun start => undoes_byte.field fun tag _ => ?_
  split
  · -- iconst
    refine undoes_long.last fun bits _ => ⟨?_, hnone, hnone, by simp [Inst.operands]⟩
    rw [Encoding.inst, UInt64.toUInt64_toInt64]
  · -- fconst
    exact undoes_long.last fun bits _ => ⟨rfl, hnone, hnone, by simp [Inst.operands]⟩
  · -- bconst
    exact undoes_bool.last fun value _ => ⟨rfl, hnone, hnone, by simp [Inst.operands]⟩
  · -- sconst
    refine undoes_text.last fun text htext => ⟨rfl, hnone, ?_, by simp [Inst.operands]⟩
    exact forall_mem_singleton.mpr htext
  · -- undef
    exact undoes_ty.last fun ty hty => ⟨rfl, hty, hnone, by simp [Inst.operands]⟩
  · -- param
    refine undoes_ty.field fun ty hty => undoes_word.last fun position hposition => ?_
    exact ⟨by simp [Encoding.inst], hnumbers hty hposition, hnone, by simp [Inst.operands]⟩
  · -- binary
    refine (undoes_choice _ (by decide)).field fun op _ => undoes_ty.field fun ty hty => ?_
    refine undoes_value.field fun lhs _ => undoes_value.last fun rhs _ => ?_
    exact ⟨by simp [Encoding.inst], hty, hnone, by simp [Inst.operands]⟩
  · -- unary
    refine (undoes_choice _ (by decide)).field fun op _ => undoes_ty.field fun ty hty => ?_
    refine undoes_value.last fun operand _ => ?_
    exact ⟨by simp [Encoding.inst], hty, hnone, by simp [Inst.operands]⟩
  · -- icmp
    refine (undoes_choice _ (by decide)).field fun predicate _ => ?_
    refine undoes_value.field fun lhs _ => undoes_value.last fun rhs _ => ?_
    exact ⟨by simp [Encoding.inst], hnone, hnone, by simp [Inst.operands]⟩
  · -- fcmp
    refine (undoes_choice _ (by decide)).field fun predicate _ => ?_
    refine undoes_value.field fun lhs _ => undoes_value.last fun rhs _ => ?_
    exact ⟨by simp [Encoding.inst], hnone, hnone, by simp [Inst.operands]⟩
  · -- cast
    refine (undoes_choice _ (by decide)).field fun op _ => undoes_ty.field fun ty hty => ?_
    refine undoes_value.last fun operand _ => ?_
    exact ⟨by simp [Encoding.inst], hty, hnone, by simp [Inst.operands]⟩
  · -- alloca
    refine undoes_ty.field fun ty hty => undoes_bool.last fun pinned _ => ?_
    exact ⟨by simp [Encoding.inst], hty, hnone, by simp [Inst.operands]⟩
  · -- load
    refine undoes_ty.field fun ty hty => undoes_value.last fun address _ => ?_
    exact ⟨by simp [Encoding.inst], hty, hnone, by simp [Inst.operands]⟩
  · -- store
    refine undoes_value.field fun address _ => undoes_value.last fun stored _ => ?_
    exact ⟨by simp [Encoding.inst], hnone, hnone, by simp [Inst.operands]⟩
  · -- fieldPtr
    refine undoes_word.field fun agg hagg => undoes_value.field fun address _ => ?_
    refine undoes_word.last fun position hposition => ?_
    refine ⟨by simp [Encoding.inst], ?_, hnone, by simp [Inst.operands]⟩
    exact forall_mem_cons.mpr ⟨hagg, forall_mem_singleton.mpr hposition⟩
  · -- new
    refine undoes_word.last fun agg hagg => ⟨rfl, ?_, hnone, by simp [Inst.operands]⟩
    exact forall_mem_singleton.mpr hagg
  · -- globalAddr
    refine undoes_text.last fun name hname => ⟨rfl, hnone, ?_, by simp [Inst.operands]⟩
    exact forall_mem_singleton.mpr hname
  · -- makeAgg
    refine undoes_word.field fun agg hagg => undoes_values.last fun fields hfields => ?_
    exact ⟨by simp [Encoding.inst], forall_mem_singleton.mpr hagg, hnone, hfields⟩
  · -- extractField
    refine undoes_ty.field fun ty hty => undoes_value.field fun aggregate _ => ?_
    refine undoes_word.last fun position hposition => ?_
    exact ⟨by simp [Encoding.inst], hnumbers hty hposition, hnone, by simp [Inst.operands]⟩
  · -- call
    refine undoes_ty.field fun ty hty => undoes_text.field fun callee hcallee => ?_
    refine undoes_values.last fun args hargs => ?_
    exact ⟨by simp [Encoding.inst], hty, forall_mem_singleton.mpr hcallee, hargs⟩
  · -- phi
    refine undoes_ty.field fun ty hty => undoes_values.last fun args hargs => ?_
    exact ⟨by simp [Encoding.inst], hty, hnone, hargs⟩
  · -- br
    exact undoes_block.last fun target _ => ⟨rfl, hnone, hnone, by simp [Inst.operands]⟩
  · -- condBr
    refine undoes_value.field fun condition _ => undoes_block.field fun thenBlock _ => ?_
    refine undoes_block.last fun elseBlock _ => ?_
    exact ⟨by simp [Encoding.inst], hnone, hnone, by simp [Inst.operands]⟩
  · -- ret
    refine undoes_bool.field fun some? _ => ?_
    cases some?
    · exact .pure ⟨by simp [Encoding.inst], hnone, hnone, by simp [Inst.operands]⟩
    · refine undoes_value.last fun result _ => ?_
      exact ⟨by simp [Encoding.inst], hnone, hnone, by simp [Inst.operands]⟩
  · -- unreachable
    exact .pure ⟨by simp [Encoding.inst], hnone, hnone, by simp [Inst.operands]⟩
  · exact .throw

/-! ### Functions -/

lemma undoes_valueInfo : Undoes Decoding.valueInfo Encoding.valueInfo FitsValue := by
  refine undoes_inst.field fun inst hinst => undoes_optionalBlock.field fun block _ => ?_
  refine undoes_span.field fun span hspan => undoes_word.last fun node hnode => ?_
  exact ⟨by simp [Encoding.valueInfo], hinst, hspan, hnode⟩

lemma undoes_blockInfo : Undoes Decoding.blockInfo Encoding.blockInfo FitsBlock := by
  refine undoes_text.field fun name hname => (undoes_sequence undoes_block).field fun preds hpreds => ?_
  refine undoes_values.last fun insts hinsts => ?_
  exact ⟨by simp [Encoding.blockInfo], hname, hpreds.1, hinsts⟩

lemma undoes_tag : Undoes Decoding.tag Encoding.tag fun tag => FitsText tag.key ∧ FitsText tag.text :=
  undoes_text.field fun _ hkey => undoes_text.last fun _ htext => ⟨rfl, hkey, htext⟩

lemma undoes_tagged : Undoes Decoding.tagged Encoding.tagged fun entry => FitsTags entry.2 :=
  undoes_value.field fun _ _ => (undoes_sequence undoes_tag).last fun _ htags =>
    ⟨rfl, htags.1, htags.2⟩

lemma undoes_listedFunction : Undoes listedFunction Encoding.function FitsFunction := by
  refine undoes_text.field fun name hname => undoes_ty.field fun ret hret => ?_
  refine undoes_span.field fun span hspan => undoes_word.field fun node hnode => ?_
  refine (undoes_sequence undoes_valueInfo).field fun values hvalues => ?_
  refine (undoes_sequence undoes_blockInfo).field fun blocks hblocks => ?_
  refine undoes_values.field fun params hparams => ?_
  refine (undoes_sequence undoes_block).field fun layout hlayout => ?_
  refine (undoes_sequence undoes_tagged).last fun tags htags => ?_
  exact ⟨by simp [Encoding.function], hname, hret, hspan, hnode, hvalues.1, hvalues.2, hblocks.1,
    hblocks.2, hparams, hlayout.1, htags.1, htags.2⟩

lemma mem_of_mem_foldl_insertTags {entries : List (Value × List Tag)} {entry : Value × List Tag}
    (h : entry ∈ entries.foldl Decoding.insertTags []) : entry ∈ entries := by
  induction entries using List.reverseRecOn with
  | nil => exact h
  | append_singleton entries last ih =>
    rw [foldl_append] at h
    rcases mem_insertTags h with rfl | h
    · simp
    · exact mem_append_left _ (ih h)

lemma length_insertTags_le (tags : List (Value × List Tag)) (entry : Value × List Tag) :
    (Decoding.insertTags tags entry).length ≤ tags.length + 1 := by
  induction tags with
  | nil => exact Nat.le_refl 1
  | cons other tags ih =>
    rw [Decoding.insertTags]
    split_ifs <;> simp only [length_cons] <;> omega

lemma length_foldl_insertTags_le (entries : List (Value × List Tag)) :
    (entries.foldl Decoding.insertTags []).length ≤ entries.length := by
  induction entries using List.reverseRecOn with
  | nil => exact Nat.le_refl 0
  | append_singleton entries last ih =>
    rw [foldl_append, length_append]
    exact (length_insertTags_le ..).trans (Nat.succ_le_succ ih)

lemma exists_mem_insertTags {tags : List (Value × List Tag)} {entry other : Value × List Tag}
    (h : other = entry ∨ other ∈ tags) : ∃ kept ∈ Decoding.insertTags tags entry, kept.1 = other.1 := by
  induction tags with
  | nil =>
    obtain rfl := h.resolve_right not_mem_nil
    exact ⟨other, mem_singleton_self _, rfl⟩
  | cons first tags ih =>
    rw [Decoding.insertTags]
    split_ifs with heq hlt
    · rcases h with rfl | h
      · exact ⟨other, mem_cons_self, rfl⟩
      · rcases mem_cons.mp h with rfl | h
        · exact ⟨entry, mem_cons_self, heq⟩
        · exact ⟨other, mem_cons_of_mem _ h, rfl⟩
    · exact ⟨other, mem_cons.mpr h, rfl⟩
    · rw [mem_cons, or_left_comm] at h
      rcases h with rfl | h
      · exact ⟨other, mem_cons_self, rfl⟩
      · obtain ⟨kept, hkept, hkey⟩ := ih h
        exact ⟨kept, mem_cons_of_mem _ hkept, hkey⟩

lemma exists_mem_foldl_insertTags {entries : List (Value × List Tag)} {entry : Value × List Tag}
    (h : entry ∈ entries) :
    ∃ kept ∈ entries.foldl Decoding.insertTags [], kept.1 = entry.1 := by
  induction entries using List.reverseRecOn with
  | nil => cases h
  | append_singleton entries last ih =>
    rw [foldl_append]
    rcases mem_append.mp h with h | h
    · obtain ⟨kept, hkept, hkey⟩ := ih h
      rw [← hkey]
      exact exists_mem_insertTags (.inr hkept)
    · exact exists_mem_insertTags (.inl (mem_singleton.mp h))

section Settled

variable {f : Function}

lemma settled_tagsOrdered (f : Function) : TagsOrdered (settled f) :=
  foldl_insertTags_ordered f.tags

lemma fits_settled (h : FitsFunction f) : FitsFunction (settled f) :=
  { h with
    tags_length := lt_of_le_of_lt (length_foldl_insertTags_le _) h.tags_length
    tags := fun entry hentry => h.tags entry (mem_of_mem_foldl_insertTags hentry) }

lemma inRange_settled_iff : InRange (settled f) ↔ InRange f := by
  constructor
  · intro h
    refine { h with tags := fun entry hentry => ?_ }
    obtain ⟨kept, hkept, hkey⟩ := exists_mem_foldl_insertTags hentry
    rw [← hkey]
    exact h.tags kept hkept
  · intro h
    exact { h with tags := fun entry hentry => h.tags entry (mem_of_mem_foldl_insertTags hentry) }

lemma reads_settled (hfits : FitsFunction f) (h : InRange f) :
    Reads Decoding.function (Encoding.function f) (settled f) := by
  rw [function_eq_listed]
  refine (reads_listedFunction hfits h).last ?_
  rw [dangling?_eq_none (inRange_settled_iff.mpr h)]
  exact .pure _

end Settled

/-- What a function is read from: its record, with no reference dangling. -/
lemma accepts_function : Accepts Decoding.function fun bytes f => ∃ listed,
    bytes = Encoding.function listed ∧ (FitsFunction listed ∧ InRange listed) ∧
      f = settled listed := by
  rw [function_eq_listed]
  refine undoes_listedFunction.field fun listed hfits => ?_
  split
  · exact .throw
  · next hdangling =>
    refine .pure ⟨listed, List.append_nil _, ⟨hfits, ?_⟩, rfl⟩
    exact inRange_settled_iff.mp (inRange_of_dangling? hdangling)

/-! ### Layouts -/

/-- The numbers of a table are listed with its layouts, last one first. -/
def Numbered (table : LayoutTable) : Prop :=
  table.index = table.layouts.toList.zipIdx.reverse

lemma Numbered.intern {table : LayoutTable} (h : Numbered table) (layout : Layout) :
    Numbered (table.intern layout).2 := by
  rw [LayoutTable.intern]
  cases table.find? layout with
  | some _ => exact h
  | none =>
    rw [Numbered] at h ⊢
    simp [h, zipIdx_append]

section OfList

variable (layouts : List Layout)

lemma ofList_numbered : Numbered (.ofList layouts) :=
  List.foldlRecOn layouts _ rfl fun _ h layout _ => h.intern layout

lemma ofList_indexed : Indexed (.ofList layouts) :=
  List.foldlRecOn layouts _ indexed_empty fun _ h layout _ => h.intern layout

lemma ofList_sublist : (LayoutTable.ofList layouts).layouts.toList.Sublist layouts := by
  induction layouts using List.reverseRecOn with
  | nil => exact List.Sublist.refl []
  | append_singleton layouts last ih =>
    rw [LayoutTable.ofList, foldl_append]
    change ((LayoutTable.ofList layouts).intern last).2.layouts.toList.Sublist _
    rw [LayoutTable.intern]
    cases (LayoutTable.ofList layouts).find? last with
    | some _ => exact ih.trans (sublist_append_left ..)
    | none =>
      rw [Array.toList_push]
      exact ih.append_right [last]

variable {layouts}

lemma ofList_layouts_of_nodup (h : layouts.Nodup) :
    (LayoutTable.ofList layouts).layouts.toList = layouts :=
  (indexed_empty.foldl_intern (by simpa [LayoutTable.empty] using h)).1

variable (layouts)

lemma ofList_ofList :
    LayoutTable.ofList (LayoutTable.ofList layouts).layouts.toList = .ofList layouts := by
  have hlayouts := ofList_layouts_of_nodup (ofList_indexed layouts).nodup
  have hindex : (LayoutTable.ofList (LayoutTable.ofList layouts).layouts.toList).index =
      (LayoutTable.ofList layouts).index := by
    rw [ofList_numbered, hlayouts, ofList_numbered]
  exact (LayoutTable.mk.injEq ..).mpr ⟨Array.toList_inj.mp hlayouts, hindex⟩

end OfList

/-! ### Modules -/

/-- The parts of a binary module as they are listed: layouts can stand there twice, and the tags of
a function in any order. -/
structure Parts where
  name : String
  layouts : List Layout
  globals : List Global
  functions : List Function

namespace Parts

def bytes (parts : Parts) : List UInt8 :=
  Encoding.magic ++ Encoding.number 2 Encoding.version ++ Encoding.text parts.name
    ++ Encoding.sequence Encoding.layout parts.layouts
    ++ Encoding.sequence Encoding.global parts.globals
    ++ Encoding.sequence Encoding.function parts.functions

def module (parts : Parts) : Ir.Module where
  name := parts.name
  types := .ofList parts.layouts
  globals := parts.globals.toArray
  functions := (parts.functions.map settled).toArray

def ofModule (module : Ir.Module) : Parts where
  name := module.name
  layouts := module.types.layouts.toList
  globals := module.globals.toList
  functions := module.functions.toList

lemma bytes_ofModule (module : Ir.Module) : (ofModule module).bytes = module.encode := by
  simp [bytes, ofModule, Ir.Module.encode, Encoding.body]

/-- Parts that can have been listed: they fit, and no reference dangles. -/
structure Listable (parts : Parts) : Prop where
  name : FitsText parts.name
  layouts_length : parts.layouts.length < 2 ^ 32
  layouts : ∀ layout ∈ parts.layouts, FitsLayout layout
  globals_length : parts.globals.length < 2 ^ 32
  globals : ∀ global ∈ parts.globals, FitsGlobal global
  functions_length : parts.functions.length < 2 ^ 32
  functions : ∀ f ∈ parts.functions, FitsFunction f ∧ InRange f

def reader : Decoding.Reader Parts := do
  let _ ← Decoding.take Encoding.magic.length
  let _ ← Decoding.number 2
  let name ← Decoding.text
  let layouts ← Decoding.sequence Decoding.layout
  let globals ← Decoding.sequence Decoding.global
  let functions ← Decoding.sequence listedFunction
  return { name, layouts, globals, functions }

def ofBytes? (bytes : List UInt8) : Option Parts :=
  (reader.run { rest := bytes }).toOption.map Prod.fst

lemma Listable.ofBytes?_bytes {parts : Parts} (h : parts.Listable) :
    ofBytes? parts.bytes = some parts := by
  have hreads : Reads reader parts.bytes parts := by
    simp only [bytes, append_assoc]
    refine (reads_take Encoding.magic).bind ((reads_number (by decide)).bind ?_)
    refine (reads_text h.name).bind ((reads_sequence h.layouts_length fun layout hlayout =>
      reads_layout (h.layouts layout hlayout)).bind ?_)
    refine (reads_sequence h.globals_length fun global hglobal =>
      reads_global (h.globals global hglobal)).bind ?_
    refine (reads_sequence h.functions_length fun f hfunction => ?_).map _
    exact reads_listedFunction (h.functions f hfunction).1 (h.functions f hfunction).2
  have hrun := hreads [] 0
  rw [List.append_nil] at hrun
  rw [ofBytes?, hrun]
  rfl

lemma Listable.decode_bytes {parts : Parts} (h : parts.Listable) :
    Module.decode parts.bytes = .ok parts.module := by
  have hreads : Reads Decoding.module parts.bytes parts.module := by
    simp only [bytes, append_assoc]
    refine (reads_take Encoding.magic).bind ?_
    refine (reads_number (by decide)).bind ?_
    refine (reads_text h.name).bind ((reads_sequence h.layouts_length fun layout hlayout =>
      reads_layout (h.layouts layout hlayout)).bind ?_)
    refine (reads_sequence h.globals_length fun global hglobal =>
      reads_global (h.globals global hglobal)).bind ?_
    refine (reads_sequence_map h.functions_length fun f hfunction => ?_).map _
    exact reads_settled (h.functions f hfunction).1 (h.functions f hfunction).2
  have hrun := hreads [] 0
  rw [List.append_nil] at hrun
  rw [Module.decode, hrun]
  rfl

end Parts

/-- What a module is read from: the parts that it is made up of. -/
lemma accepts_module : Accepts Decoding.module fun bytes module => ∃ parts : Parts,
    bytes = parts.bytes ∧ parts.Listable ∧ module = parts.module := by
  refine (accepts_take _).bind ?_
  rintro _ magic ⟨rfl, -⟩
  split_ifs with hmagic
  · exact .throw
  rw [not_not] at hmagic
  subst hmagic
  refine (undoes_number 2).field fun version _ => ?_
  split_ifs with hversion
  · exact .throw
  rw [not_not] at hversion
  subst hversion
  refine undoes_text.field fun name hname => (undoes_sequence undoes_layout).field
    fun layouts hlayouts => (undoes_sequence undoes_global).field fun globals hglobals => ?_
  refine (accepts_sequence accepts_function).bind ?_
  rintro _ _ ⟨functions, rfl, rfl, hlength, hfunctions⟩
  refine .pure ⟨⟨name, layouts, globals, functions⟩, ?_, ?_, rfl⟩
  · simp [Parts.bytes]
  · exact ⟨hname, hlayouts.1, hlayouts.2, hglobals.1, hglobals.2, hlength, hfunctions⟩

lemma decode_eq_ok {bytes : List UInt8} {module : Ir.Module}
    (h : Module.decode bytes = .ok module) : ∃ parts : Parts, bytes = parts.bytes ∧
      Takes Decoding.module 0 bytes module ∧ parts.Listable ∧ module = parts.module := by
  obtain ⟨⟨result, cursor⟩, hrun, hrest⟩ := bind_eq_ok_iff.mp h
  dsimp only at hrest
  split at hrest
  · next hlength =>
    cases hrest
    obtain ⟨taken, hbytes, htakes, parts, hparts⟩ := accepts_module _ _ _ hrun
    rw [length_eq_zero_iff.mp hlength, List.append_nil] at hbytes
    subst hbytes
    exact ⟨parts, hparts.1, htakes, hparts.2⟩
  · cases hrest

namespace Parts

lemma Listable.ofModule_module {parts : Parts} (h : parts.Listable) :
    (ofModule parts.module).Listable where
  name := h.name
  layouts_length := lt_of_le_of_lt (ofList_sublist _).length_le h.layouts_length
  layouts layout hlayout := h.layouts layout ((ofList_sublist _).subset hlayout)
  globals_length := h.globals_length
  globals := h.globals
  functions_length := by simpa [ofModule, module] using h.functions_length
  functions f hfunction := by
    obtain ⟨listed, hlisted, rfl⟩ := mem_map.mp hfunction
    obtain ⟨hfits, hrange⟩ := h.functions listed hlisted
    exact ⟨fits_settled hfits, inRange_settled_iff.mpr hrange⟩

lemma Listable.decode_encode {parts : Parts} (h : parts.Listable) :
    Module.decode parts.module.encode = .ok parts.module := by
  obtain ⟨hname, hlayoutsLength, hlayouts, hglobalsLength, hglobals, hfunctionsLength, hfunctions⟩ :=
    h.ofModule_module
  have hfits : FitsModule parts.module :=
    ⟨hname, hlayoutsLength, hlayouts, hglobalsLength, hglobals, hfunctionsLength,
      fun f hf => (hfunctions f hf).1⟩
  have hread := decode_encode_reinterned hfits (fun f hf => (hfunctions f hf).2) fun f hf => by
    obtain ⟨listed, -, rfl⟩ := mem_map.mp hf
    exact settled_tagsOrdered listed
  have hsame : reinterned parts.module = parts.module := by
    rw [reinterned, module, ofList_ofList]
  rw [hread, hsame]

/-- Nothing is lost of the parts if and only if no layout is listed twice and tags are in order. -/
lemma ofModule_module_eq_iff {parts : Parts} : ofModule parts.module = parts ↔
    parts.layouts.Nodup ∧ ∀ f ∈ parts.functions, TagsOrdered f := by
  obtain ⟨name, layouts, globals, functions⟩ := parts
  simp only [ofModule, module, mk.injEq, true_and]
  refine and_congr ⟨fun heq => ?_, ofList_layouts_of_nodup⟩ ?_
  · rw [← heq]
    exact (ofList_indexed layouts).nodup
  · constructor
    · intro heq f hfunction
      rw [← heq] at hfunction
      obtain ⟨listed, -, rfl⟩ := mem_map.mp hfunction
      exact settled_tagsOrdered listed
    · intro hordered
      refine (map_congr_left fun f hf => ?_).trans (map_id _)
      exact settled_eq_self (hordered f hf)

end Parts

/-- Every byte string that is accepted lists the parts of a module. The module is read back from its
own bytes. They are the same bytes if and only if no layout is listed twice and the tags of every
function are listed in strictly increasing order of values. -/
theorem accepted_bytes_are_stable {bytes : List UInt8} {module : Ir.Module}
    (h : Module.decode bytes = .ok module) :
    Module.decode module.encode = .ok module ∧
    ∃ parts, Parts.ofBytes? bytes = some parts ∧ parts.bytes = bytes ∧ parts.module = module ∧
      (module.encode = bytes ↔
        parts.layouts.Nodup ∧ ∀ function ∈ parts.functions, TagsOrdered function) := by
  obtain ⟨parts, rfl, -, hlistable, rfl⟩ := decode_eq_ok h
  refine ⟨hlistable.decode_encode, parts, hlistable.ofBytes?_bytes, rfl, rfl, ?_⟩
  rw [← Parts.ofModule_module_eq_iff, ← Parts.bytes_ofModule]
  constructor
  · intro heq
    have hread := congrArg Parts.ofBytes? heq
    rw [hlistable.ofModule_module.ofBytes?_bytes, hlistable.ofBytes?_bytes] at hread
    exact Option.some.inj hread
  · intro heq
    rw [heq]

/-- A layout that is listed twice, and tags that are listed out of order. -/
def untidy : Parts where
  name := "untidy"
  layouts := [.data "Pair" [.i64, .i1], .result "Result<Int, Str>" .i64 .ptr, .data "Pair" [.i64, .i1]]
  globals := []
  functions := [{ Function.declaration "f" [.i64, .agg 1] .void .zero 7 with
    tags := [(⟨1⟩, [⟨"key", "text"⟩]), (⟨0⟩, []), (⟨1⟩, [⟨"key", "last"⟩])] }]

lemma untidy_listable : untidy.Listable where
  name := by decide
  layouts_length := by decide
  layouts := by decide
  globals_length := by decide
  globals := by decide
  functions_length := by decide
  functions f hfunction := by
    obtain rfl := mem_singleton.mp hfunction
    exact ⟨by decide, inRange_of_dangling? (by decide)⟩

theorem untidy_is_stable :
    Module.decode untidy.bytes = .ok untidy.module ∧ untidy.module.encode ≠ untidy.bytes ∧
    Module.decode untidy.module.encode = .ok untidy.module ∧
    ∃ parts, Parts.ofBytes? untidy.bytes = some parts ∧ parts.bytes = untidy.bytes ∧
      parts.module = untidy.module ∧ (untidy.module.encode = untidy.bytes ↔
        parts.layouts.Nodup ∧ ∀ function ∈ parts.functions, TagsOrdered function) := by
  have hread := untidy_listable.decode_bytes
  have hstable := accepted_bytes_are_stable hread
  refine ⟨hread, ?_, hstable⟩
  obtain ⟨-, parts, hparts, -, -, hcanonical⟩ := hstable
  rw [untidy_listable.ofBytes?_bytes] at hparts
  obtain rfl := Option.some.inj hparts
  rw [Ne, hcanonical]
  exact fun h => absurd h.1 (by decide)

/-- What is accepted is not accepted cut short, which is noticed at its end, and not with more bytes
behind it, which are counted. -/
theorem accepted_bytes_are_exact {bytes : List UInt8} {module : Ir.Module}
    (h : Module.decode bytes = .ok module) :
    (∀ part, part <+: bytes → part ≠ bytes →
      ∃ stop, Module.decode part = .error (.unexpectedEnd stop)) ∧
    ∀ more, more ≠ [] → Module.decode (bytes ++ more) = .error (.trailingBytes more.length) := by
  obtain ⟨parts, -, htakes, -⟩ := decode_eq_ok h
  refine ⟨fun part hpart hne => ?_, fun more hmore => ?_⟩
  · obtain ⟨stop, hstop⟩ := htakes.needs part hpart hne
    refine ⟨stop, ?_⟩
    rw [Module.decode, hstop]
    rfl
  · obtain ⟨first, rest, rfl⟩ := exists_cons_of_ne_nil hmore
    rw [Module.decode, htakes.follows]
    rfl

theorem untidy_is_exact :
    Module.decode untidy.bytes = .ok untidy.module ∧
    (∀ part, part <+: untidy.bytes → part ≠ untidy.bytes →
      ∃ stop, Module.decode part = .error (.unexpectedEnd stop)) ∧
    ∀ more, more ≠ [] →
      Module.decode (untidy.bytes ++ more) = .error (.trailingBytes more.length) :=
  ⟨untidy_listable.decode_bytes, accepted_bytes_are_exact untidy_listable.decode_bytes⟩

end SsaLowering.Proofs
