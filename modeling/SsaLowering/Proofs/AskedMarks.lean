import SsaLowering.Proofs.LexicalScopes
import SsaLowering.Proofs.LoweredBody

/-!
# Asked marks

While it lowers a body, lowering asks whether control gets to the cursor. The answers are right in the
finished function: a block that was found dead is not reached there, although edges are added later.
So only ends that are not reached are dropped, and a missing value is reported exactly if control can
come to the end without one.
-/

namespace SsaLowering.Proofs

open Ir Lowering List
open Ir.Builder (firstBlock)

variable {s s' : LowerState}

/-- In a finished function the marks are exact. -/
lemma Finished.isLive_iff {A : Avail} {b : Builder} (h : Finished A b) (t : Ir.Block) :
    b.isLive t = true ↔ Reached b.function firstBlock t := by
  have hedge : (fun p t => t ∈ (codeOf b).exits p) = Edge b.function := by
    funext p t
    rw [Edge, h.successors_eq]
  constructor
  · intro ht
    rw [Reached, ← hedge]
    exact h.live_reached t ht
  · intro ht
    refine ht.induction (motive := fun t => b.isLive t = true) h.live_first fun p t _ hnext hp => ?_
    exact h.live_edges p t hp (h.successors_eq p ▸ hnext)

/-- Answers since the start are right at the end of a body, and so is the mark of its last block. -/
lemma lowerWhole_told {env : Environment} {body : Core.Body} {tail : Option Value} {s1 s2 : LowerState}
    (hbody : (do enterScope; declareParams ⟨env, body⟩; lowerBlock ⟨env, body⟩ body.block)
      (startOf env body) = .ok tail s1) (hfinish : finishBody ⟨env, body⟩ tail s1 = .ok () s2) :
    (∃ A, Finished A s2.builder) ∧
      (∀ t answer, .asked t answer ∈ s2.notes → s2.builder.isLive t = answer) ∧
      s2.builder.function.ret = s1.builder.function.ret ∧
      s2.builder.isLive s1.builder.current = s1.builder.isReachable := by
  have hunknown := Setting.not_known ⟨env, body⟩
  obtain ⟨s0, A1, w, hopening, hlow, h1, htail⟩ :=
    (lowerTop_ends (.start (.unknown ⟨env, body⟩) ..) fun hk => absurd hk hunknown).of_ok hbody
  obtain ⟨A2, hended⟩ := (finishBody_ends h1 htail).of_ok hfinish
  have hwhole := hlow.toStaged.trans_pass hopening.coherent hended
  obtain ⟨new, hnotes, htold⟩ := hwhole.told
  refine ⟨⟨A2, hopening.finished (hwhole.mono (by simp))⟩, fun t answer hasked => ?_,
    hended.toGrown.ret_eq, ?_⟩
  · rw [hnotes, hopening.notes_eq, append_nil] at hasked
    exact (htold t answer hasked).2.1
  · rw [hended.live_eq _ h1.isOpen.1]
    simp [Course.way, Course.pass, Builder.isReachable]

/-- The value of a body is found missing at its end only. -/
lemma finishBody_missing {env : Environment} {body : Core.Body} {tail : Option Value} {s1 s2 : LowerState}
    (hwalks : WalksAlong ⟨env, body⟩ (outlineOfBody body) (viewOf (startOf env body))
      (viewOf { s1 with scopes := s1.scopes.pop }))
    (hfinish : finishBody ⟨env, body⟩ tail s1 = .ok () s2) :
    (∃ report ∈ s2.reports, report.kind = .missingReturn) ↔
      s1.builder.function.ret ≠ .void ∧ tail = none ∧ s1.builder.isReachable = true := by
  obtain ⟨strays, hstrays, hkind⟩ := hwalks.reports_eq
  obtain ⟨-, last, hview, hlast⟩ := finishBody_view hfinish
  have hseen : (∃ report ∈ s2.reports, report.kind = .missingReturn) ↔
      .missingReturn ∈ (viewOf s2).reports.map Report.kind := by
    simp only [viewOf, mem_map, mem_filter]
    constructor
    · rintro ⟨report, hmem, hreport⟩
      exact ⟨report, ⟨hmem, by simp [hreport]⟩, hreport⟩
    · rintro ⟨report, ⟨hmem, -⟩, hreport⟩
      exact ⟨report, hmem, hreport⟩
  have hbefore : .missingReturn ∉ (viewOf s1).reports.map Report.kind := by
    intro hmem
    obtain ⟨report, hmem, hreport⟩ := mem_map.mp hmem
    have hstray := hkind report (hstrays ▸ hmem : report ∈ [] ++ strays)
    rw [hreport] at hstray
    cases hstray
  rw [hseen, hview, map_append, mem_append, or_iff_right hbefore, hlast]
  split
  · next hall => simp [hall]
  · next hall =>
    simp only [not_mem_nil, false_iff]
    tauto

/-- An arm is dropped if the answer is that control does not get to its end. -/
lemma finishArm_asks {value : Option Value} (h : finishArm value s = .ok none s') :
    .asked s.builder.current false ∈ s'.notes := by
  obtain ⟨answer, s1, hasked, h⟩ := bind_ok_iff.mp h
  cases answer with
  | true =>
    obtain ⟨_, s2, hget, h⟩ := bind_ok_iff.mp h
    cases h
  | false =>
    obtain ⟨_, s2, hseal, h⟩ := bind_ok_iff.mp h
    obtain ⟨-, rfl⟩ := pure_ok_iff.mp h
    have hnotes : s'.notes = s1.notes := by
      replace hseal := get_bind_run.symm.trans hseal
      split at hseal
      · obtain ⟨v, hv⟩ := discard_ok_iff.mp hseal
        obtain ⟨b', -, rfl⟩ := tryBuild_ok_iff.mp hv
        rfl
      · cases hseal
        rfl
    obtain ⟨hdead, rfl⟩ := EStateM.Result.ok.inj hasked
    rw [hnotes, LowerState.noted, hdead]
    exact mem_cons_self ..

/-- What was noted before any part of a body is lowered still is afterwards. -/
structure NotesGrow (ctx : Context) : Prop where
  block : ∀ block s value s', lowerBlock ctx block s = .ok value s' → s.notes <:+ s'.notes
  stmts : ∀ stmts s u s', lowerStmts ctx stmts s = .ok u s' → s.notes <:+ s'.notes
  expr : ∀ expr s value s', lowerExpr ctx expr s = .ok value s' → s.notes <:+ s'.notes
  arms : ∀ subject arms s ends s', lowerArms ctx subject arms s = .ok ends s' → s.notes <:+ s'.notes
  merge : ∀ span node ty name ends s value s', mergeArms ctx span node ty name ends s = .ok value s' →
    s.notes <:+ s'.notes
  finish : ∀ tail s u s', finishBody ctx tail s = .ok u s' → s.notes <:+ s'.notes

lemma notes_grow (ctx : Context) : NotesGrow ctx where
  block block _ _ _ h := (lowerBlock_walks block h).2.2
  stmts stmts _ _ _ h := (lowerStmts_walks stmts h).2.2
  expr expr _ _ _ h := (lowerExpr_walks expr h).2.2
  arms _ arms _ _ _ h := (lowerArms_walks arms h).2.2
  merge span node ty name ends _ _ _ h := (mergeArms_silent ctx span node ty name ends h).2.2
  finish _ _ _ _ h := (finishBody_view h).1.2

/-- Each answer on whether control gets to the cursor is right in the finished function. An arm is
dropped only if its end is not reached there: what it was dropped for has been noted, and notes only
grow. A missing value is reported exactly if control can come to the end of the body without one. -/
theorem asked_marks_are_right {env : Environment} {body : Core.Body} {f : Function}
    (h : (lowerBody env body).function = .ok f) :
    ∃ s, lowerWhole ⟨env, body⟩ (startOf env body) = .ok () s ∧ s.builder.function = f ∧
      (∀ t answer, .asked t answer ∈ s.notes → (answer = true ↔ Reached f firstBlock t)) ∧
      NotesGrow ⟨env, body⟩ ∧
      (∀ value s₁ s₂, finishArm value s₁ = .ok none s₂ → .asked s₁.builder.current false ∈ s₂.notes ∧
        (s₂.notes <:+ s.notes → ¬ Reached f firstBlock s₁.builder.current)) ∧
      ∃ tail s₁, (do enterScope; declareParams ⟨env, body⟩; lowerBlock ⟨env, body⟩ body.block)
          (startOf env body) = .ok tail s₁ ∧
        ((∃ report ∈ (lowerBody env body).reports, report.kind = .missingReturn) ↔
          f.ret ≠ .void ∧ tail = none ∧ Reached f firstBlock s₁.builder.current) := by
  obtain ⟨s, hrun, rfl, hreports⟩ := lowerBody_run h
  obtain ⟨tail, s₁, hbody, s₂, hfinish, rfl, hwalks⟩ := lowerWhole_walks hrun
  obtain ⟨⟨A, hfinished⟩, htold, hret, hlive⟩ := lowerWhole_told hbody hfinish
  have hright : ∀ t answer, .asked t answer ∈ s₂.notes →
      (answer = true ↔ Reached s₂.builder.function firstBlock t) := by
    intro t answer hasked
    rw [← hfinished.isLive_iff, htold t answer hasked]
  refine ⟨_, hrun, rfl, hright, notes_grow _, fun _ _ _ hdropped => ?_, tail, s₁, hbody, ?_⟩
  · have hasked := finishArm_asks hdropped
    exact ⟨hasked, fun hlater => (hright _ _ (hlater.subset hasked)).not.mp (by simp)⟩
  · rw [← hreports, ← hfinished.isLive_iff, hlive, hret]
    exact (finishBody_missing hwalks hfinish :)

/-- A body that returns in one arm only. -/
def halfReturning : Core.Body :=
  let expr (ty : Nat) (kind : Core.ExprKind) : Core.Expr := ⟨0, .zero, ty, kind⟩
  let returned := expr Source.TypeTable.int (.literal (.int 1))
  let choice := expr Source.TypeTable.unit (.ifElse (expr Source.TypeTable.bool (.localVar ⟨0⟩))
    ⟨0, .zero, [⟨0, .zero, .ret (some returned)⟩], none⟩ ⟨0, .zero, [], none⟩)
  { name := "half"
    params := [⟨0⟩]
    ret := Source.TypeTable.int
    locals := #[⟨"b", Source.TypeTable.bool, false, false⟩]
    block := ⟨0, .zero, [⟨0, .zero, .expr choice⟩], none⟩
    span := .zero
    node := 0 }

theorem halfReturning_reaches_its_end :
    ∃ f, (lowerBody noItems halfReturning).function = .ok f ∧ f.ret ≠ .void ∧
      ∃ s, lowerWhole ⟨noItems, halfReturning⟩ (startOf noItems halfReturning) = .ok () s ∧
        s.builder.function = f ∧
        ∀ t answer, .asked t answer ∈ s.notes → (answer = true ↔ Reached f firstBlock t) := by
  obtain ⟨f, hf⟩ : ∃ f, (lowerBody noItems halfReturning).function = .ok f :=
    exists_ok_of_toBool (by decide +kernel)
  have hmissing : .missingReturn ∈ (lowerBody noItems halfReturning).reports.map Report.kind := by
    decide +kernel
  obtain ⟨s, hrun, hfunction, hasked, -, -, tail, s₁, -, hiff⟩ := asked_marks_are_right hf
  exact ⟨f, hf, (hiff.mp (mem_map.mp hmissing)).1, s, hrun, hfunction, hasked⟩

end SsaLowering.Proofs
