import UnusedImports.Verdict

/-!
Settling the verdicts. The annotations before an import count as references only while it
stays, and they may in turn keep other imports. So the imports are judged by the references
of the body first; then the annotations of the imports kept join in and all are judged
again, until a round adds nothing. Each round but the last uses up the annotations of some
of them.
-/
namespace UnusedImports

structure Settlement where
  /-- The references that count, in the order in which they joined. -/
  references : List Reference
  /-- The verdicts of the earlier rounds, first round first. -/
  earlier : List (List Decision)
  /-- The verdicts of the last round. -/
  decisions : List Decision

namespace Settlement

/-- The references that a round adds: those waiting at an import that the round keeps. -/
def joining (decisions : List Decision) (waiting : List (List Reference)) : List Reference :=
  (List.zipWith
    (fun decision own => if decision.verdict.isRemove then [] else own)
    decisions waiting).flatten

def stillWaiting (decisions : List Decision) (waiting : List (List Reference)) :
    List (List Reference) :=
  List.zipWith
    (fun decision own => if decision.verdict.isRemove then own else [])
    decisions waiting

def countWaiting (waiting : List (List Reference)) : Nat :=
  waiting.countP fun own => !own.isEmpty

theorem countWaiting_stillWaiting_le (decisions : List Decision)
    (waiting : List (List Reference)) :
    countWaiting (stillWaiting decisions waiting) ≤ countWaiting waiting := by
  induction decisions generalizing waiting with
  | nil => simp [stillWaiting, countWaiting]
  | cons decision rest ih =>
    cases waiting with
    | nil => simp [stillWaiting, countWaiting]
    | cons own waiting =>
      have h := ih waiting
      unfold stillWaiting countWaiting at h ⊢
      simp only [List.zipWith_cons_cons, List.countP_cons]
      cases decision.verdict.isRemove <;> simp <;> omega

/-- A round that adds references leaves fewer imports with references waiting. -/
theorem countWaiting_stillWaiting_lt (decisions : List Decision)
    (waiting : List (List Reference)) (h : joining decisions waiting ≠ []) :
    countWaiting (stillWaiting decisions waiting) < countWaiting waiting := by
  induction decisions generalizing waiting with
  | nil => simp [joining] at h
  | cons decision rest ih =>
    cases waiting with
    | nil => simp [joining] at h
    | cons own waiting =>
      have hle := countWaiting_stillWaiting_le rest waiting
      have hlt := ih waiting
      unfold joining at h hlt
      unfold stillWaiting countWaiting at hle hlt ⊢
      simp only [List.zipWith_cons_cons, List.countP_cons, List.flatten_cons] at h ⊢
      cases hremove : decision.verdict.isRemove with
      | true =>
        simp only [hremove, ↓reduceIte, List.nil_append, ne_eq] at h ⊢
        have := hlt h
        omega
      | false =>
        cases own with
        | nil =>
          simp only [hremove, Bool.false_eq_true, ↓reduceIte, List.nil_append, ne_eq] at h ⊢
          have := hlt h
          omega
        | cons reference own =>
          simp only [Bool.false_eq_true, ↓reduceIte, List.isEmpty_nil, List.isEmpty_cons,
            Bool.not_true, Bool.not_false]
          omega

/-- Judges the imports until a round adds no references. `waiting` holds, for each import,
the references of its annotations that do not count yet. -/
def settle (policy : Policy) (declarations : List ImportDeclaration)
    (references : List Reference) (waiting : List (List Reference)) : Settlement :=
  let decisions := Decision.judge policy declarations references
  let added := joining decisions waiting
  if _h : added = [] then ⟨references, [], decisions⟩
  else
    let later := settle policy declarations (references ++ added)
      (stillWaiting decisions waiting)
    { later with earlier := decisions :: later.earlier }
termination_by countWaiting waiting
decreasing_by exact countWaiting_stillWaiting_lt _ _ _h

end Settlement

end UnusedImports
