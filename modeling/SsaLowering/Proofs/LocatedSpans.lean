import SsaLowering.Diagnostic
import Mathlib

/-!
# Located spans

The search in the line table finds what counting from the start of the text gives, as long as the
counts fit into 32 bits. A report then indents its carets to the span, and has one for each of its
bytes that is left on the line. That is one for each character where characters are bytes, and too
many before a character that is not.
-/

namespace SsaLowering.Proofs

open SourceText List
open String (utf8Len)

variable {chars : List Char} {source : SourceText} {span : Span}

/-! ### Searching -/

/-- How many entries of a table are at most the target, by the outcome of a search for it. -/
def rankOf : Except Nat Nat → Nat
  | .ok index => index + 1
  | .error index => index

/-- A search ends where the entries that are at most the target do. -/
lemma rankOf_search {table : Array Nat} {lower upper : List Nat} {target low high : Nat}
    {hhigh : high ≤ table.size} (htable : table.toList = lower ++ upper)
    (hlower : lower.Pairwise (· < ·)) (hle : ∀ x ∈ lower, x ≤ target)
    (hgt : ∀ x ∈ upper, target < x) (hfrom : low ≤ lower.length) (hto : lower.length ≤ high) :
    rankOf (search table target low high hhigh) = lower.length := by
  have hget (i : Nat) (hi : i < table.size) :
      i < lower.length ∧ table[i] ≤ target ∨ lower.length ≤ i ∧ target < table[i] := by
    rw [← Array.getElem_toList]
    simp only [htable]
    rcases Nat.lt_or_ge i lower.length with hlt | hge
    · rw [getElem_append_left hlt]
      exact .inl ⟨hlt, hle _ (getElem_mem _)⟩
    · rw [getElem_append_right hge]
      exact .inr ⟨hge, hgt _ (getElem_mem _)⟩
  fun_induction search table target low high hhigh with
  | case1 low high hhigh hlow middle hmiddle heq =>
    have hlt : middle < lower.length := by
      have := hget middle hmiddle
      omega
    -- an entry behind this one that is at most the target would not be above it
    by_contra hne
    have hnext : middle + 1 < lower.length := by
      simp only [rankOf] at hne
      omega
    have habove := pairwise_iff_getElem.mp hlower middle (middle + 1) hlt hnext (by omega)
    have hbelow := hle _ (getElem_mem hnext)
    have heq' : lower[middle] = target := by
      rw [← heq, ← Array.getElem_toList]
      simp only [htable]
      rw [getElem_append_left hlt]
    omega
  | case2 low high hhigh hlow middle hmiddle hne hlt ih =>
    have := hget middle hmiddle
    exact ih (by omega) hto
  | case3 low high hhigh hlow middle hmiddle hne hlt ih =>
    have := hget middle hmiddle
    exact ih hfrom (by omega)
  | case4 low high hhigh hlow =>
    simp only [rankOf]
    omega

/-! ### Lines -/

lemma byteLength_eq (chars : List Char) : byteLength chars = utf8Len chars := by
  rw [byteLength, ← sum_eq_foldl]
  induction chars with
  | nil => rfl
  | cons c rest ih => rw [map_cons, sum_cons, ih, String.utf8Len_cons, Nat.add_comm]

lemma breaks_append (offset : Nat) (before after : List Char) :
    breaks offset (before ++ after) =
      breaks offset before ++ breaks (offset + utf8Len before) after := by
  induction before generalizing offset with
  | nil => rfl
  | cons c rest ih =>
    have hlen : offset + utf8Len (c :: rest) = offset + c.utf8Size + utf8Len rest := by
      rw [String.utf8Len_cons]
      omega
    simp only [cons_append, breaks, ih, hlen]
    split <;> rfl

lemma mem_breaks {offset x : Nat} (h : x ∈ breaks offset chars) :
    offset < x ∧ x ≤ offset + utf8Len chars := by
  induction chars generalizing offset with
  | nil => cases h
  | cons c rest ih =>
    have hpos := c.utf8Size_pos
    have hrest (h : x ∈ breaks (offset + c.utf8Size) rest) := ih h
    rw [String.utf8Len_cons]
    rw [breaks] at h
    split_ifs at h
    · rcases mem_cons.mp h with rfl | h
      · omega
      · have := hrest h
        omega
    · have := hrest h
      omega

lemma breaks_ascend (offset : Nat) (chars : List Char) :
    (offset :: breaks offset chars).Pairwise (· < ·) := by
  induction chars generalizing offset with
  | nil => simp [breaks]
  | cons c rest ih =>
    refine pairwise_cons.mpr ⟨fun x hx => (mem_breaks hx).1, ?_⟩
    rw [breaks]
    split_ifs
    · exact ih _
    · exact (ih _).of_cons

lemma lineIndex_eq {offset : Nat} {lower upper : List Nat}
    (hstarts : source.lineStarts.toList = lower ++ upper) (hle : ∀ x ∈ lower, x ≤ offset)
    (hgt : ∀ x ∈ upper, offset < x) : source.lineIndex offset = lower.length - 1 := by
  have hascend : (lower ++ upper).Pairwise (· < ·) := hstarts ▸ breaks_ascend 0 source.text.toList
  have hsize : lower.length ≤ source.lineStarts.size := by
    rw [← Array.length_toList, hstarts, length_append]
    omega
  have hrank : rankOf (search source.lineStarts offset 0 source.lineStarts.size (Nat.le_refl _)) =
      lower.length :=
    rankOf_search hstarts (pairwise_append.mp hascend).1 hle hgt (Nat.zero_le _) hsize
  rw [lineIndex]
  split <;> rename_i index hsearch <;> rw [hsearch, rankOf] at hrank <;> omega

lemma length_breaks (offset : Nat) (chars : List Char) :
    (breaks offset chars).length = chars.count '\n' := by
  induction chars generalizing offset with
  | nil => rfl
  | cons c rest ih =>
    rw [breaks, count_cons]
    split_ifs <;> simp_all

/-- The characters behind the last line break. -/
def lastLine (chars : List Char) : List Char :=
  chars.rtakeWhile (· ≠ '\n')

/-- The characters up to the first line break, and that. -/
def firstLine : List Char → List Char
  | [] => []
  | c :: rest => if c = '\n' then [c] else c :: firstLine rest

lemma getLast_breaks (chars : List Char) : ∃ earlier, chars = earlier ++ lastLine chars ∧
    (0 :: breaks 0 chars).getLast? = some (utf8Len earlier) := by
  induction chars using List.reverseRecOn with
  | nil => exact ⟨[], rfl, rfl⟩
  | append_singleton rest c ih =>
    rw [breaks_append, lastLine, rtakeWhile_concat]
    by_cases hc : c = '\n'
    · refine ⟨rest ++ [c], ?_, ?_⟩
      · simp [hc]
      · rw [hc, breaks, if_pos rfl, breaks, ← cons_append, getLast?_concat]
        simp
    · obtain ⟨earlier, hsplit, hlast⟩ := ih
      refine ⟨earlier, ?_, ?_⟩
      · rw [if_pos (by simpa using hc), ← append_assoc]
        exact congrArg (· ++ [c]) hsplit
      · simp [hc, breaks, hlast]

lemma head_breaks (offset : Nat) (chars : List Char) :
    (breaks offset chars).head?.getD (offset + utf8Len chars) =
      offset + utf8Len (firstLine chars) := by
  induction chars generalizing offset with
  | nil => rfl
  | cons c rest ih =>
    rw [breaks, firstLine]
    split_ifs
    · simp
    · rw [String.utf8Len_cons, String.utf8Len_cons]
      have := ih (offset + c.utf8Size)
      grind

lemma firstLine_prefix (chars : List Char) : ∃ later, chars = firstLine chars ++ later := by
  induction chars with
  | nil => exact ⟨[], rfl⟩
  | cons c rest ih =>
    obtain ⟨later, hlater⟩ := ih
    rw [firstLine]
    split_ifs
    · exact ⟨rest, rfl⟩
    · exact ⟨later, by rw [cons_append, ← hlater]⟩

/-! ### Slices -/

lemma splitBytes?_append (front back : List Char) :
    splitBytes? (utf8Len front) (front ++ back) = some (front, back) := by
  induction front with
  | nil => cases back <;> rfl
  | cons c rest ih =>
    have hpos := c.utf8Size_pos
    obtain ⟨count, hcount⟩ : ∃ count, utf8Len (c :: rest) = count + 1 :=
      Nat.exists_eq_succ_of_ne_zero (by rw [String.utf8Len_cons]; omega)
    have hrest : count + 1 - c.utf8Size = utf8Len rest := by
      rw [← hcount, String.utf8Len_cons, Nat.add_sub_cancel]
    rw [hcount, cons_append, splitBytes?, hrest, ih, if_pos (by rw [← hcount]; simp)]
    rfl

lemma splitBytes?_eq_some {count : Nat} {front back : List Char}
    (h : splitBytes? count chars = some (front, back)) :
    chars = front ++ back ∧ utf8Len front = count := by
  fun_induction splitBytes? count chars generalizing front back with
  | case1 chars =>
    cases h
    exact ⟨rfl, rfl⟩
  | case2 => cases h
  | case3 count c rest hfits ih =>
    obtain ⟨⟨front, back⟩, hrest, hpair⟩ := Option.map_eq_some_iff.mp h
    cases hpair
    obtain ⟨rfl, hlen⟩ := ih hrest
    exact ⟨rfl, by rw [String.utf8Len_cons, hlen]; omega⟩
  | case4 => cases h

lemma slice?_append (front middle back : List Char) :
    slice? (front ++ (middle ++ back)) (utf8Len front) (utf8Len front + utf8Len middle) =
      some middle := by
  simp [slice?, splitBytes?_append]

/-- Where the text is split at the start of a span, its line is the end of the front and the start of
the back. -/
lemma lineAt?_of_split {before after : List Char} (hchars : source.text.toList = before ++ after)
    (hstart : utf8Len before = span.start) (hstop : span.stop ≤ source.size) :
    source.lineAt? span =
      some (before.count '\n', lastLine before, lastLine before ++ firstLine after) := by
  obtain ⟨earlier, hsplit, hlast⟩ := getLast_breaks before
  obtain ⟨later, hlater⟩ := firstLine_prefix after
  have hlen : utf8Len before = utf8Len earlier + utf8Len (lastLine before) := by
    rw [← String.utf8Len_append, ← hsplit]
  have hsize : source.size = span.start + utf8Len after := by
    rw [size, byteLength_eq, hchars, String.utf8Len_append, hstart]
  -- the lines that start up to here are those that `before` has, then come those of `after`
  have hcount : (0 :: breaks 0 before).length = before.count '\n' + 1 := by
    rw [length_cons, length_breaks]
  have hstarts : source.lineStarts = ((0 :: breaks 0 before) ++ breaks span.start after).toArray := by
    rw [lineStarts, hchars, breaks_append, Nat.zero_add, hstart, cons_append]
  have hindex : source.lineIndex span.start = before.count '\n' := by
    rw [lineIndex_eq (by rw [hstarts]) ?_ fun x hx => (mem_breaks hx).1,
      hcount, Nat.add_sub_cancel]
    intro x hx
    rcases mem_cons.mp hx with rfl | hx
    · exact Nat.zero_le _
    · have := (mem_breaks hx).2
      omega
  have hlineStart : source.lineStarts[before.count '\n']? = some (utf8Len earlier) := by
    rw [← hlast, getLast?_eq_getElem?, hcount, Nat.add_sub_cancel, hstarts,
      getElem?_toArray, getElem?_append_left (by omega)]
  have hlineStop : (source.lineStarts[before.count '\n' + 1]?).getD source.size =
      utf8Len earlier + utf8Len (lastLine before ++ firstLine after) := by
    rw [hstarts, getElem?_toArray, getElem?_append_right (by omega), hcount, Nat.sub_self,
      ← head?_eq_getElem?, hsize, head_breaks, String.utf8Len_append]
    omega
  have htext : before ++ after = earlier ++ (lastLine before ++ after) := by
    rw [← append_assoc, ← hsplit]
  have hbefore : slice? (before ++ after) (utf8Len earlier) span.start = some (lastLine before) := by
    rw [htext, ← hstart, hlen, slice?_append]
  have hline : slice? (before ++ after) (utf8Len earlier)
      (utf8Len earlier + utf8Len (lastLine before ++ firstLine after)) =
        some (lastLine before ++ firstLine after) := by
    have hwhole : lastLine before ++ after = lastLine before ++ firstLine after ++ later := by
      rw [append_assoc, ← hlater]
    rw [htext, hwhole, slice?_append]
  simp only [lineAt?, hindex, hlineStart, hlineStop, hchars, hbefore, hline, hstop, guard,
    if_true, Option.getD_some]
  rfl

lemma exists_split_of_lineAt? {line : Nat × List Char × List Char}
    (h : source.lineAt? span = some line) :
    span.stop ≤ source.size ∧
    ∃ before after, source.text.toList = before ++ after ∧ utf8Len before = span.start := by
  obtain ⟨_, hguard, h⟩ := Option.bind_eq_some_iff.mp h
  obtain ⟨_, hslice, _⟩ := Option.bind_eq_some_iff.mp h
  obtain ⟨_, hle, hslice⟩ := Option.bind_eq_some_iff.mp hslice
  obtain ⟨⟨front, rest⟩, hfront, hslice⟩ := Option.bind_eq_some_iff.mp hslice
  obtain ⟨⟨middle, after⟩, hmiddle, -⟩ := Option.bind_eq_some_iff.mp hslice
  obtain ⟨hchars, hfrontLen⟩ := splitBytes?_eq_some hfront
  obtain ⟨rfl, hmiddleLen⟩ := splitBytes?_eq_some hmiddle
  have hle : (source.lineStarts[source.lineIndex span.start]?).getD 0 ≤ span.start := by
    simpa [guard] using hle
  refine ⟨by simpa [guard] using hguard, front ++ middle, after, ?_, ?_⟩
  · rw [hchars, append_assoc]
  · rw [String.utf8Len_append, hfrontLen, hmiddleLen]
    omega

/-- A line is found exactly if the span ends within the text and starts between characters. -/
lemma lineAt?_eq_some_iff {line : Nat × List Char × List Char} :
    source.lineAt? span = some line ↔ span.stop ≤ source.text.utf8ByteSize ∧
      ∃ before after : String, source.text = before ++ after ∧ before.utf8ByteSize = span.start ∧
        line = (before.toList.count '\n', lastLine before.toList,
          lastLine before.toList ++ firstLine after.toList) := by
  have hsize : source.size = source.text.utf8ByteSize := by
    rw [size, byteLength_eq, ← String.utf8ByteSize_ofList, String.ofList_toList]
  rw [← hsize]
  constructor
  · intro h
    obtain ⟨hstop, before, after, hchars, hstart⟩ := exists_split_of_lineAt? h
    refine ⟨hstop, .ofList before, .ofList after, ?_, ?_, ?_⟩
    · rw [← String.ofList_append, ← hchars, String.ofList_toList]
    · rw [String.utf8ByteSize_ofList, hstart]
    · rw [lineAt?_of_split hchars hstart hstop] at h
      rw [String.toList_ofList, String.toList_ofList, Option.some.inj h]
  · rintro ⟨hstop, before, after, htext, hstart, rfl⟩
    refine lineAt?_of_split (by rw [htext, String.toList_append]) ?_ hstop
    rw [← String.utf8ByteSize_ofList, String.ofList_toList, hstart]

/-! ### Counting in 32 bits -/

lemma oneMore_eq_ok_iff {count : Nat} {number : UInt32} :
    oneMore count = .ok number ↔ number.toNat = 1 + count := by
  have hlt : number.toNat < UInt32.size := number.toNat_lt_size
  rw [oneMore, Nat.add_comm 1]
  split_ifs with h
  · rw [Except.ok.injEq, ← UInt32.toNat_inj, UInt32.toNat_ofNatLT, eq_comm]
  · simp only [false_iff]
    omega

lemma oneMore_eq_error_iff {count : Nat} {fault : Fault} :
    oneMore count = .error fault ↔ fault = .overflow ∧ 2 ^ 32 ≤ 1 + count := by
  rw [oneMore, Nat.add_comm 1]
  split_ifs with h
  · simp only [false_iff, not_and]
    exact fun _ => Nat.not_le_of_lt h
  · rw [Except.error.injEq, eq_comm]
    exact (and_iff_left (Nat.le_of_not_lt h)).symm

lemma locate_overflows {index : Nat} {before line : List Char}
    (h : source.lineAt? span = some (index, before, line))
    (hlarge : 2 ^ 32 ≤ 1 + before.length ∨ 2 ^ 32 ≤ 1 + index) :
    source.locate span = .error .overflow := by
  rw [locate, h]
  dsimp only
  cases hcolumn : oneMore before.length with
  | error fault =>
    obtain ⟨rfl, -⟩ := oneMore_eq_error_iff.mp hcolumn
    rfl
  | ok column =>
    have hfits := oneMore_eq_ok_iff.mp hcolumn ▸ column.toNat_lt
    rw [oneMore_eq_error_iff.mpr ⟨rfl, hlarge.resolve_left (Nat.not_le_of_lt hfits)⟩]
    rfl

/-- What becomes of a line that was found: a place with its numbers, or an overflow. -/
lemma locate_of_lineAt? {index : Nat} {before line : List Char}
    (h : source.lineAt? span = some (index, before, line)) :
    (∀ place, source.locate span = .ok (some place) ↔ place.line.toNat = 1 + index ∧
      place.column.toNat = 1 + before.length ∧ place.lineText = String.ofList line) ∧
    source.locate span ≠ .ok none ∧
    ∀ fault, source.locate span = .error fault ↔
      fault = .overflow ∧ (2 ^ 32 ≤ 1 + before.length ∨ 2 ^ 32 ≤ 1 + index) := by
  by_cases hlarge : 2 ^ 32 ≤ 1 + before.length ∨ 2 ^ 32 ≤ 1 + index
  · rw [locate_overflows h hlarge]
    refine ⟨fun place => iff_of_false (by simp) fun hplace => ?_, by simp, fun fault => ?_⟩
    · have hline := place.line.toNat_lt
      have hcolumn := place.column.toNat_lt
      omega
    · rw [Except.error.injEq, eq_comm, and_iff_left hlarge]
  · have hsmall {count : Nat} (hcount : ¬ 2 ^ 32 ≤ 1 + count) :
        ∃ number : UInt32, number.toNat = 1 + count :=
      ⟨.ofNat (1 + count), UInt32.toNat_ofNat_of_lt' (Nat.lt_of_not_le hcount)⟩
    obtain ⟨column, hcolumn⟩ := hsmall (not_or.mp hlarge).1
    obtain ⟨number, hnumber⟩ := hsmall (not_or.mp hlarge).2
    have hfound : source.locate span = .ok (some ⟨number, column, String.ofList line⟩) := by
      rw [locate, h]
      dsimp only
      rw [oneMore_eq_ok_iff.mpr hcolumn, oneMore_eq_ok_iff.mpr hnumber]
      rfl
    rw [hfound, ← hnumber, ← hcolumn]
    refine ⟨fun place => ?_, by simp, fun fault => iff_of_false (by simp) fun hfault => ?_⟩
    · obtain ⟨placeLine, placeColumn, placeText⟩ := place
      simp [UInt32.toNat_inj, eq_comm]
    · rw [hcolumn, hnumber] at hfault
      exact hlarge hfault.2

/-- A place has the counts of what is before the span, which have to fit into 32 bits. -/
lemma locate_eq_some_iff {place : SourceLocation} :
    source.locate span = .ok (some place) ↔ span.stop ≤ source.text.utf8ByteSize ∧
      ∃ before after : String, source.text = before ++ after ∧ before.utf8ByteSize = span.start ∧
        place.line.toNat = 1 + before.toList.count '\n' ∧
        place.column.toNat = 1 + (lastLine before.toList).length ∧
        place.lineText = String.ofList (lastLine before.toList ++ firstLine after.toList) := by
  constructor
  · intro h
    cases hline : source.lineAt? span with
    | none =>
      rw [locate, hline] at h
      cases h
    | some line =>
      obtain ⟨hstop, before, after, htext, hstart, rfl⟩ := lineAt?_eq_some_iff.mp hline
      exact ⟨hstop, before, after, htext, hstart, ((locate_of_lineAt? hline).1 place).mp h⟩
  · rintro ⟨hstop, before, after, htext, hstart, hplace⟩
    have hline := lineAt?_eq_some_iff.mpr ⟨hstop, before, after, htext, hstart, rfl⟩
    exact ((locate_of_lineAt? hline).1 place).mpr hplace

/-- A text and a diagnostic on the statement in its second line. -/
def breakOutside : SourceText × Diagnostic :=
  (⟨"main.kn", "fn f() \x7b\n    break;\n\x7d\n"⟩,
    ⟨.error, ⟨13, 18, by omega⟩, "break outside of a loop", "not inside a loop"⟩)

/-- How many of the characters the first `count` bytes reach. -/
def covered : Nat → List Char → Nat
  | 0, _ => 0
  | _ + 1, [] => 0
  | count + 1, c :: rest => covered (count + 1 - c.utf8Size) rest + 1

lemma covered_le (count : Nat) (chars : List Char) :
    covered count chars ≤ count ∧ covered count chars ≤ chars.length := by
  fun_induction covered count chars with
  | case1 => exact ⟨Nat.le_refl _, Nat.zero_le _⟩
  | case2 => exact ⟨Nat.zero_le _, Nat.le_refl _⟩
  | case3 count c rest ih =>
    have hpos := c.utf8Size_pos
    rw [length_cons]
    omega

lemma covered_eq_zero {count : Nat} (h : covered count chars = 0) :
    count = 0 ∨ chars.length = 0 := by
  fun_cases covered count chars with
  | case1 => exact .inl rfl
  | case2 => exact .inr rfl
  | case3 => simp [covered] at h

/-- What a report quotes from the place on. -/
def quotedFrom (place : SourceLocation) : List Char :=
  (Diagnostic.trimLineEnd place.lineText.toList).drop (place.column.toNat - 1)

/-- What is quoted from the place on stands in the text where the span starts. -/
lemma quotedFrom_prefix {place : SourceLocation} {before after : List Char}
    (hcolumn : place.column.toNat = 1 + (lastLine before).length)
    (htext : place.lineText = String.ofList (lastLine before ++ firstLine after)) :
    quotedFrom place <+: after := by
  obtain ⟨later, hlater⟩ := firstLine_prefix after
  have htrim : Diagnostic.trimLineEnd (lastLine before ++ firstLine after) <+:
      lastLine before ++ firstLine after :=
    List.rdropWhile_prefix _ _
  rw [quotedFrom, htext, hcolumn, String.toList_ofList, Nat.add_sub_cancel_left]
  refine (htrim.drop _).trans ?_
  rw [drop_left]
  exact ⟨later, hlater.symm⟩

lemma reportAt_ends (diagnostic : Diagnostic) (path : String) (place : SourceLocation) :
    ∃ heading, diagnostic.reportAt path place = heading ++ "\n" ++
      (Diagnostic.underline (String.ofList (List.replicate (toString place.line.toNat).length ' '))
        place.column.toNat (Diagnostic.caretCount diagnostic.span.length
          (Diagnostic.trimLineEnd place.lineText.toList).length place.column.toNat) ++ " " ++
        diagnostic.message) ++ "\n" := by
  have hassoc (a b c d : String) : a ++ "\n" ++ b ++ c ++ d = a ++ "\n" ++ (b ++ c ++ d) := by
    simp only [String.append_assoc]
  exact ⟨_, congrArg (· ++ "\n") (hassoc _ _ _ _)⟩

/-- A report on a span with a place ends in a line that is indented to the column of the place and
has carets. They are as many as there are characters of the span on the line, or one if there are
none, exactly if these are as many as the span has bytes, or reach to the end of the line. -/
theorem carets_fit_iff {source : SourceText} {diagnostic : Diagnostic} {place : SourceLocation}
    (h : source.locate diagnostic.span = .ok (some place)) :
    let gutter := String.ofList (List.replicate (toString place.line.toNat).length ' ')
    let line := Diagnostic.trimLineEnd place.lineText.toList
    let carets := Diagnostic.caretCount diagnostic.span.length line.length place.column.toNat
    let reached := covered diagnostic.span.length (quotedFrom place)
    (∃ before after : String, source.text = before ++ after ∧
      before.utf8ByteSize = diagnostic.span.start ∧ quotedFrom place <+: after.toList) ∧
    (∃ heading, diagnostic.report source = .ok (heading ++ "\n" ++
      (gutter ++ " | " ++ String.ofList (List.replicate (place.column.toNat - 1) ' ')
        ++ String.ofList (List.replicate carets '^') ++ " " ++ diagnostic.message) ++ "\n")) ∧
    (carets = max 1 reached ↔
      reached = diagnostic.span.length ∨ reached = (quotedFrom place).length) := by
  intro gutter line carets reached
  refine ⟨?_, ?_, ?_⟩
  · obtain ⟨-, before, after, htext, hstart, -, hcolumn, hline⟩ := locate_eq_some_iff.mp h
    exact ⟨before, after, htext, hstart, quotedFrom_prefix hcolumn hline⟩
  · obtain ⟨heading, hreport⟩ := reportAt_ends diagnostic source.path place
    refine ⟨heading, ?_⟩
    rw [Diagnostic.report, h]
    exact congrArg Except.ok hreport
  · have hle := covered_le diagnostic.span.length (quotedFrom place)
    have hzero := @covered_eq_zero (quotedFrom place) diagnostic.span.length
    have hleft : (quotedFrom place).length = line.length - (place.column.toNat - 1) := length_drop
    simp only [carets, Diagnostic.caretCount, ← hleft]
    omega

theorem breakOutside_is_underlined :
    breakOutside.1.locate breakOutside.2.span = .ok (some ⟨2, 5, "    break;\n"⟩) ∧
    covered 5 (quotedFrom ⟨2, 5, "    break;\n"⟩) = 5 ∧
    Diagnostic.caretCount breakOutside.2.span.length 10 5 = max 1 5 := by
  have hplace : breakOutside.1.locate breakOutside.2.span = .ok (some ⟨2, 5, "    break;\n"⟩) := by
    cbv
  exact ⟨hplace, by cbv, (carets_fit_iff hplace).2.2.mpr (.inl (by cbv))⟩

/-- A text and a diagnostic on its first letter, which is two bytes wide. -/
def wideLetter : SourceText × Diagnostic :=
  (⟨"main.kn", "é = 1\n"⟩, ⟨.error, ⟨0, 2, by omega⟩, "unknown name", "not found"⟩)

/-- The blank behind the letter is underlined too. -/
theorem wideLetter_has_two_carets :
    wideLetter.1.locate wideLetter.2.span = .ok (some ⟨1, 1, "é = 1\n"⟩) ∧
    covered wideLetter.2.span.length "é = 1".toList = 1 ∧
    wideLetter.2.report wideLetter.1 =
      .ok "error: unknown name\n --> main.kn:1:1\n  |\n1 | é = 1\n  | ^^ not found\n" := by
  have hplace : wideLetter.1.locate wideLetter.2.span = .ok (some ⟨1, 1, "é = 1\n"⟩) := by cbv
  refine ⟨hplace, by cbv, ?_⟩
  rw [Diagnostic.report, hplace]
  decide +kernel

end SsaLowering.Proofs
