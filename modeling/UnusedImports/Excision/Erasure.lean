import UnusedImports.Excision

/-!
Cutting as erasure. When no cut stops before it starts, copying a text around the cuts leaves
exactly the characters that start in none of them, in their order. So the removal of
statements only ever takes characters away.
-/
namespace UnusedImports

namespace Text

theorem takeBytes_append_dropBytes (count : Nat) (text : List Char) :
    takeBytes count text ++ dropBytes count text = text := by
  induction text generalizing count with
  | nil => rfl
  | cons c rest ih =>
    unfold takeBytes dropBytes
    split
    · rfl
    · simpa using ih _

@[simp]
theorem takeBytes_zero (text : List Char) : takeBytes 0 text = [] := by
  cases text <;> simp [takeBytes]

/-- What is left after the characters that start before a limit starts at the limit or
later. -/
theorem le_of_dropBytes_ne_nil {limit offset : Nat} {text : List Char}
    (h : dropBytes (limit - offset) text ≠ []) :
    limit ≤ offset + byteLength (takeBytes (limit - offset) text) := by
  induction text generalizing offset with
  | nil => exact absurd rfl h
  | cons c rest ih =>
    unfold dropBytes at h
    unfold takeBytes
    by_cases hzero : limit - offset = 0
    · simp only [if_pos hzero, byteLength]
      omega
    · rw [if_neg hzero, Nat.sub_sub] at h
      have := ih h
      simp only [if_neg hzero, byteLength, Nat.sub_sub]
      omega

end Text

namespace Excision

/-- The text without the characters that start in one of the cuts, for a text that itself
starts at `offset`. -/
def erase (cuts : List Extent) (offset : Nat) : List Char → List Char
  | [] => []
  | c :: rest =>
    if cuts.any fun cut => cut.contains offset then erase cuts (offset + c.utf8Size) rest
    else c :: erase cuts (offset + c.utf8Size) rest

theorem erase_sublist (cuts : List Extent) (offset : Nat) (text : List Char) :
    (erase cuts offset text).Sublist text := by
  induction text generalizing offset with
  | nil => exact List.Sublist.refl _
  | cons c rest ih =>
    unfold erase
    split
    · exact (ih _).cons c
    · exact (ih _).cons_cons c

theorem erase_nil (offset : Nat) (text : List Char) : erase [] offset text = text := by
  induction text generalizing offset with
  | nil => rfl
  | cons c rest ih => simp [erase, ih]

theorem erase_append (cuts : List Extent) (offset : Nat) (first second : List Char) :
    erase cuts offset (first ++ second) =
      erase cuts offset first ++ erase cuts (offset + Text.byteLength first) second := by
  induction first generalizing offset with
  | nil => simp [erase, Text.byteLength]
  | cons c rest ih =>
    simp only [List.cons_append, erase, ih, Text.byteLength, Nat.add_assoc]
    split <;> simp

theorem erase_cons_of_le {cut : Extent} {offset : Nat} (h : cut.stop ≤ offset)
    (cuts : List Extent) (text : List Char) :
    erase (cut :: cuts) offset text = erase cuts offset text := by
  induction text generalizing offset with
  | nil => rfl
  | cons c rest ih =>
    have hcut : cut.contains offset = false := by
      simp only [Extent.contains, Bool.and_eq_false_iff, decide_eq_false_iff_not]
      omega
    simp only [erase, List.any_cons, hcut, Bool.false_or,
      ih (Nat.le_trans h (Nat.le_add_right offset c.utf8Size))]

/-- Only which cuts there are matters, not their order. -/
theorem erase_congr {cuts others : List Extent} (h : ∀ cut, cut ∈ cuts ↔ cut ∈ others)
    (offset : Nat) (text : List Char) : erase cuts offset text = erase others offset text := by
  induction text generalizing offset with
  | nil => rfl
  | cons c rest ih =>
    have hany : (cuts.any fun cut => cut.contains offset) =
        others.any fun cut => cut.contains offset := by
      rw [Bool.eq_iff_iff]
      simp only [List.any_eq_true, h]
    simp only [erase, hany, ih]

/-- Up to the end of the first cut, what lies before its start is left. -/
theorem erase_takeBytes {cut : Extent} {cuts : List Extent} (hmem : cut ∈ cuts)
    (hforward : cut.start ≤ cut.stop) (hfirst : ∀ other ∈ cuts, cut.start ≤ other.start)
    (offset : Nat) (text : List Char) :
    erase cuts offset (Text.takeBytes (cut.stop - offset) text) =
      Text.takeBytes (cut.start - offset) text := by
  induction text generalizing offset with
  | nil => rfl
  | cons c rest ih =>
    by_cases hstop : cut.stop - offset = 0
    · have hstart : cut.start - offset = 0 := by omega
      simp [hstop, hstart, erase]
    · rw [Text.takeBytes, if_neg hstop, Nat.sub_sub, erase]
      by_cases hstart : cut.start - offset = 0
      · have hcut : (cuts.any fun other => other.contains offset) = true :=
          List.any_eq_true.mpr ⟨cut, hmem, by
            simp only [Extent.contains, Bool.and_eq_true, decide_eq_true_eq]
            omega⟩
        have hrest : cut.start - (offset + c.utf8Size) = 0 := by omega
        simp [hcut, ih, hstart, hrest]
      · have hcut : (cuts.any fun other => other.contains offset) = false := by
          rw [List.any_eq_false]
          intro other hother
          have := hfirst other hother
          simp only [Extent.contains, Bool.and_eq_true, decide_eq_true_eq]
          omega
        rw [if_neg (by simp [hcut]), ih, Text.takeBytes, if_neg hstart, Nat.sub_sub]

/-- Copying around cuts in order is erasing them, when no cut stops before it starts. -/
theorem splice_eq_erase (cuts : List Extent) (hforward : ∀ cut ∈ cuts, cut.start ≤ cut.stop)
    (hsorted : cuts.Pairwise fun first second => first.start ≤ second.start)
    (offset : Nat) (text : List Char) : splice offset text cuts = erase cuts offset text := by
  induction cuts generalizing offset text with
  | nil => rw [splice, erase_nil]
  | cons cut cuts ih =>
    obtain ⟨hfirst, hrest⟩ := List.pairwise_cons.mp hsorted
    have hleast : ∀ other ∈ cut :: cuts, cut.start ≤ other.start := by
      intro other hother
      rcases List.mem_cons.mp hother with rfl | hother
      · exact Nat.le_refl _
      · exact hfirst other hother
    have hsplit := Text.takeBytes_append_dropBytes (cut.stop - offset) text
    conv => rhs; rw [← hsplit]
    rw [splice, erase_append,
      erase_takeBytes List.mem_cons_self (hforward cut List.mem_cons_self) hleast,
      ih (fun other hother => hforward other (List.mem_cons_of_mem cut hother)) hrest]
    by_cases hnil : Text.dropBytes (cut.stop - offset) text = []
    · simp [hnil, erase]
    · rw [erase_cons_of_le (Text.le_of_dropBytes_ne_nil hnil)]

theorem comesBefore_trans (a b c : Extent) (hab : comesBefore a b) (hbc : comesBefore b c) :
    comesBefore a c := by
  simp only [comesBefore, Bool.or_eq_true, Bool.and_eq_true, decide_eq_true_eq,
    beq_iff_eq] at *
  omega

theorem comesBefore_total (a b : Extent) : comesBefore a b || comesBefore b a := by
  simp only [comesBefore, Bool.or_eq_true, Bool.and_eq_true, decide_eq_true_eq, beq_iff_eq]
  omega

/-- Removing statements erases the planned cuts, when no cut stops before it starts. -/
theorem remove_eq_erase (text : List Char) (tokens : List Token) (removals : List Extent)
    (hforward : ∀ cut ∈ (plan text tokens removals).cuts, cut.start ≤ cut.stop) :
    remove text tokens removals = erase (plan text tokens removals).cuts 0 text := by
  have hmem : ∀ cut, cut ∈ (plan text tokens removals).cuts.mergeSort comesBefore ↔
      cut ∈ (plan text tokens removals).cuts := fun cut => List.mem_mergeSort
  rw [remove, splice_eq_erase _ (fun cut hcut => hforward cut ((hmem cut).mp hcut))]
  · exact erase_congr hmem 0 text
  · refine (List.pairwise_mergeSort comesBefore_trans comesBefore_total _).imp ?_
    intro first second h
    simp only [comesBefore, Bool.or_eq_true, Bool.and_eq_true, decide_eq_true_eq,
      beq_iff_eq] at h
    omega

end Excision

end UnusedImports
