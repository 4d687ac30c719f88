import Mathlib.Data.List.TakeWhile
import UnusedImports.Proofs.Excision.Marks

/-!
Runs of deleted and blank lines. Blank lines are dropped run by run: which of them a run gives up
is told by the marks of the run itself, by whether it opens the text and by whether nothing but an
empty line follows it. What comes before it and after it in the text does not matter otherwise.
-/
namespace UnusedImports.Excision

/-- A stretch of a list in which all members pass a test, and that cannot be made longer. -/
structure IsRun {α : Type} (test : α → Bool) (list before run after : List α) : Prop where
  split : list = before ++ (run ++ after)
  inside : ∀ member ∈ run, test member = true
  left : ∀ member, before.getLast? = some member → test member = false
  right : ∀ member, after.head? = some member → test member = false

section Lists

variable {α β : Type} {test : α → Bool} {list before run after : List α}

/-- A member that passes the test lies in a run. -/
theorem exists_isRun (test : α → Bool) {member : α} (hmem : member ∈ list)
    (htest : test member = true) :
    ∃ before run after, IsRun test list before run after ∧ member ∈ run := by
  induction list with
  | nil => simp at hmem
  | cons first list ih =>
    by_cases hlater : member ∈ list
    · obtain ⟨before, run, after, hrun, hmember⟩ := ih hlater
      cases before with
      | nil =>
        cases hfirst : test first with
        | true =>
          refine ⟨[], first :: run, after, ⟨?_, ?_, by simp, hrun.right⟩,
            List.mem_cons_of_mem first hmember⟩
          · rw [hrun.split]
            rfl
          · intro other hother
            rcases List.mem_cons.mp hother with rfl | hother
            · exact hfirst
            · exact hrun.inside other hother
        | false =>
          refine ⟨[first], run, after, ⟨?_, hrun.inside, ?_, hrun.right⟩, hmember⟩
          · rw [hrun.split]
            rfl
          · intro other hother
            obtain rfl := Option.some.inj hother
            exact hfirst
      | cons second before =>
        refine ⟨first :: second :: before, run, after, ⟨?_, hrun.inside, ?_, hrun.right⟩, hmember⟩
        · rw [hrun.split]
          rfl
        · intro other hother
          rw [List.getLast?_cons_cons] at hother
          exact hrun.left other hother
    · obtain rfl := (List.mem_cons.mp hmem).resolve_right hlater
      refine ⟨[], member :: list.takeWhile test, list.dropWhile test, ⟨?_, ?_, by simp, ?_⟩,
        List.mem_cons_self⟩
      · simp [List.takeWhile_append_dropWhile]
      · intro other hother
        rcases List.mem_cons.mp hother with rfl | hother
        · exact htest
        · exact List.all_eq_true.mp List.all_takeWhile other hother
      · intro other hother
        have hhead := List.head?_dropWhile_not test list
        rw [hother] at hhead
        simpa using hhead

theorem IsRun.map {change : β → α} {list before run after : List β}
    (h : IsRun (fun member => test (change member)) list before run after) :
    IsRun test (list.map change) (before.map change) (run.map change) (after.map change) where
  split := by rw [h.split, List.map_append, List.map_append]
  inside := List.forall_mem_map.mpr h.inside
  left := by
    intro member hmember
    rw [List.getLast?_map] at hmember
    obtain ⟨original, horiginal, rfl⟩ := Option.map_eq_some_iff.mp hmember
    exact h.left original horiginal
  right := by
    intro member hmember
    rw [List.head?_map] at hmember
    obtain ⟨original, horiginal, rfl⟩ := Option.map_eq_some_iff.mp hmember
    exact h.right original horiginal

/-- A run that does not open the list is one of the rest. -/
theorem IsRun.of_cons {first second : α}
    (h : IsRun test (first :: list) (second :: before) run after) :
    first = second ∧ IsRun test list before run after := by
  obtain ⟨hfirst, hsplit⟩ := List.cons.inj h.split
  refine ⟨hfirst, hsplit, h.inside, fun member hmember => h.left member ?_, h.right⟩
  rw [List.getLast?_cons, hmember, Option.getD_some]

/-- A run that opens the list is what can be taken from it. -/
theorem IsRun.takeWhile_eq (h : IsRun test list [] run after) :
    list.takeWhile test = run ∧ list.dropWhile test = after := by
  rw [h.split, List.nil_append, List.takeWhile_append_of_pos h.inside,
    List.dropWhile_append_of_pos h.inside]
  cases after with
  | nil => simp
  | cons first after =>
    have hfirst := h.right first rfl
    simp [hfirst]

/-- Any other run is left when members that pass the test are dropped from the list. -/
theorem IsRun.dropWhile (h : IsRun test list before run after) (hbefore : before ≠ []) :
    list.takeWhile test = before.takeWhile test ∧
      IsRun test (list.dropWhile test) (before.dropWhile test) run after := by
  obtain ⟨last, hlast⟩ : ∃ last, before.getLast? = some last :=
    ⟨_, List.getLast?_eq_some_getLast hbefore⟩
  have hnot := h.left last hlast
  have hdrop : before.dropWhile test ≠ [] := by
    intro hnil
    have hall := List.dropWhile_eq_nil_iff.mp hnil last (List.mem_of_getLast? hlast)
    simp [hnot] at hall
  have htake : (before.takeWhile test).length ≠ before.length := by
    intro hlength
    have hsplit := congrArg List.length (List.takeWhile_append_dropWhile (p := test) (l := before))
    rw [List.length_append, hlength] at hsplit
    exact hdrop (List.length_eq_zero_iff.mp (by omega))
  rw [h.split, List.takeWhile_append, List.dropWhile_append, if_neg htake,
    if_neg (by simpa using hdrop)]
  refine ⟨rfl, rfl, h.inside, fun member hmember => h.left member ?_, h.right⟩
  rw [← List.takeWhile_append_dropWhile (p := test) (l := before), List.getLast?_append, hmember,
    Option.some_or]

end Lists

section Surplus

variable {marked before run after : List (Line × Mark)}

theorem mem_of_mem_surplusOfRun {atStart atEnd : Bool} {line : Line}
    (h : line ∈ surplusOfRun atStart atEnd run) : (∃ mark, (line, mark) ∈ run) := by
  unfold surplusOfRun at h
  split at h
  · obtain ⟨entry, hentry, rfl⟩ := List.mem_map.mp h
    exact ⟨entry.2, (List.mem_filter.mp (List.mem_of_mem_drop hentry)).1⟩
  · simp at h

/-- A run that is not empty gives up its own lines, and what else is given up lies before it or
after it. -/
theorem surplus_of_isRun (h : IsRun (fun entry => entry.2 != .solid) marked before run after)
    (hrun : run ≠ []) (atStart : Bool) :
    ∃ earlier later, surplus atStart marked =
        earlier ++ (surplusOfRun (atStart && before.isEmpty)
          (after.all fun entry => entry.1.text.isEmpty) run ++ later) ∧
      (∀ line ∈ earlier, ∃ mark, (line, mark) ∈ before) ∧
      ∀ line ∈ later, ∃ mark, (line, mark) ∈ after := by
  fun_induction surplus atStart marked generalizing before with
  | case1 =>
    have hsplit := h.split
    simp [hrun] at hsplit
  | case2 atStart entry rest hsolid ih =>
    cases before with
    | nil =>
      obtain ⟨first, run, rfl⟩ := List.exists_cons_of_ne_nil hrun
      obtain ⟨rfl, -⟩ := List.cons.inj h.split
      have hfirst := h.inside entry List.mem_cons_self
      simp [hsolid] at hfirst
    | cons first before =>
      obtain ⟨rfl, hinner⟩ := h.of_cons
      obtain ⟨earlier, later, hsurplus, hearlier, hlater⟩ := ih hinner
      refine ⟨earlier, later, by simpa using hsurplus, fun line hline => ?_, hlater⟩
      obtain ⟨mark, hmark⟩ := hearlier line hline
      exact ⟨mark, List.mem_cons_of_mem _ hmark⟩
  | case3 atStart entry rest hsolid =>
    rename_i tail ih
    cases before with
    | nil =>
      obtain ⟨first, run, rfl⟩ := List.exists_cons_of_ne_nil hrun
      obtain ⟨rfl, hrest⟩ := List.cons.inj h.split
      have hopens : IsRun (fun entry => entry.2 != .solid) rest [] run after :=
        ⟨hrest, fun member hmember => h.inside member (List.mem_cons_of_mem _ hmember), by simp,
          h.right⟩
      obtain ⟨htake, hdrop⟩ := hopens.takeWhile_eq
      refine ⟨[], surplus false after, ?_, by simp, fun line hline => ?_⟩
      · rw [htake, show tail = after from hdrop]
        simp
      · exact ⟨.blank, blank_of_mem_surplus hline⟩
    | cons first before =>
      obtain ⟨rfl, hinner⟩ := h.of_cons
      have hbefore : before ≠ [] := by
        rintro rfl
        have hfirst := h.left entry rfl
        simp [hsolid] at hfirst
      obtain ⟨htake, hdropped⟩ := hinner.dropWhile hbefore
      obtain ⟨earlier, later, hsurplus, hearlier, hlater⟩ := ih hdropped
      have hown : ∀ line ∈ surplusOfRun atStart (tail.all fun entry => entry.1.text.isEmpty)
          (entry :: rest.takeWhile fun entry => entry.2 != .solid),
            ∃ mark, (line, mark) ∈ entry :: before := by
        intro line hline
        obtain ⟨mark, hmark⟩ := mem_of_mem_surplusOfRun hline
        rw [htake] at hmark
        exact ⟨mark, ((List.takeWhile_sublist _).cons_cons entry).subset hmark⟩
      refine ⟨surplusOfRun atStart (tail.all fun entry => entry.1.text.isEmpty)
        (entry :: rest.takeWhile fun entry => entry.2 != .solid) ++ earlier, later, ?_, ?_, hlater⟩
      · rw [hsurplus, List.append_assoc]
        simp
      · intro line hline
        rcases List.mem_append.mp hline with hline | hline
        · exact hown line hline
        · obtain ⟨mark, hmark⟩ := hearlier line hline
          exact ⟨mark, List.mem_cons_of_mem _ ((List.dropWhile_sublist _).subset hmark)⟩

end Surplus

end UnusedImports.Excision
