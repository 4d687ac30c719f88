import Mathlib.Order.Monotone.Basic
import UnusedImports.Proofs.Text.Offset

/-!
Texts with carriage returns. A text without carriage returns gets one before each of its line
feeds. An offset moves on by the number of line feeds before it, so the order of offsets stays
as it is, and a part of the text stands where its own start has moved to.
-/
namespace UnusedImports.Text

def withReturns (text : List Char) : List Char :=
  text.flatMap fun c => if c = '\n' then ['\r', '\n'] else [c]

@[simp]
theorem withReturns_nil : withReturns [] = [] := rfl

@[simp]
theorem withReturns_feed (rest : List Char) :
    withReturns ('\n' :: rest) = '\r' :: '\n' :: withReturns rest := rfl

theorem withReturns_cons {c : Char} (h : c ≠ '\n') (rest : List Char) :
    withReturns (c :: rest) = c :: withReturns rest := by
  unfold withReturns
  rw [List.flatMap_cons, if_neg h, List.singleton_append]

@[simp]
theorem withReturns_append (first second : List Char) :
    withReturns (first ++ second) = withReturns first ++ withReturns second :=
  List.flatMap_append

theorem withReturns_of_not_mem {text : List Char} (h : '\n' ∉ text) : withReturns text = text := by
  induction text with
  | nil => rfl
  | cons c rest ih =>
    rw [List.mem_cons, not_or] at h
    rw [withReturns_cons (Ne.symm h.1), ih h.2]

@[simp]
theorem withReturns_eq_nil {text : List Char} : withReturns text = [] ↔ text = [] := by
  cases text with
  | nil => simp
  | cons c rest =>
    by_cases hc : c = '\n'
    · simp [hc]
    · simp [withReturns_cons hc]

@[simp]
theorem isEmpty_withReturns (text : List Char) : (withReturns text).isEmpty = text.isEmpty := by
  rw [Bool.eq_iff_iff, List.isEmpty_iff, List.isEmpty_iff, withReturns_eq_nil]

theorem mem_withReturns_feed {text : List Char} : '\n' ∈ withReturns text ↔ '\n' ∈ text := by
  induction text with
  | nil => simp
  | cons c rest ih =>
    by_cases hc : c = '\n'
    · simp [hc]
    · rw [withReturns_cons hc, List.mem_cons, List.mem_cons, ih]

section Reading

variable {test : Char → Bool}

/-- The first character passes a test that no character of a line end passes. -/
theorem head?_any_withReturns (hfeed : test '\n' = false) (hreturn : test '\r' = false)
    (text : List Char) : (withReturns text).head?.any test = text.head?.any test := by
  cases text with
  | nil => rfl
  | cons c rest =>
    by_cases hc : c = '\n'
    · simp [hc, hfeed, hreturn]
    · simp [withReturns_cons hc]

theorem head?_withReturns {c : Char} (hfeed : c ≠ '\n') (hreturn : c ≠ '\r') (text : List Char) :
    (withReturns text).head? = some c ↔ text.head? = some c := by
  cases text with
  | nil => simp
  | cons d rest =>
    by_cases hd : d = '\n'
    · simp [hd, Ne.symm hfeed, Ne.symm hreturn]
    · simp [withReturns_cons hd]

theorem takeWhile_withReturns (hfeed : test '\n' = false) (hreturn : test '\r' = false)
    (text : List Char) : (withReturns text).takeWhile test = text.takeWhile test := by
  induction text with
  | nil => rfl
  | cons c rest ih =>
    by_cases hc : c = '\n'
    · simp [hc, hfeed, hreturn]
    · rw [withReturns_cons hc, List.takeWhile_cons, List.takeWhile_cons, ih]

theorem dropWhile_withReturns (hfeed : test '\n' = false) (hreturn : test '\r' = false)
    (text : List Char) :
    (withReturns text).dropWhile test = withReturns (text.dropWhile test) := by
  induction text with
  | nil => rfl
  | cons c rest ih =>
    by_cases hc : c = '\n'
    · simp [hc, hfeed, hreturn]
    · rw [withReturns_cons hc, List.dropWhile_cons, List.dropWhile_cons, ih]
      split
      · rfl
      · rw [withReturns_cons hc]

theorem takeWhile_reverse_withReturns (hfeed : test '\n' = false) (text : List Char) :
    (withReturns text).reverse.takeWhile test = text.reverse.takeWhile test := by
  induction h : text.reverse generalizing text with
  | nil => simp [List.reverse_eq_nil_iff.mp h]
  | cons c before ih =>
    have htext : text = before.reverse ++ [c] := by
      rw [← List.reverse_reverse text, h, List.reverse_cons]
    rw [htext, withReturns_append, List.reverse_append, List.takeWhile_cons]
    by_cases hc : c = '\n'
    · simp [hc, hfeed]
    · rw [withReturns_cons hc, withReturns_nil, List.reverse_singleton, List.singleton_append,
        List.takeWhile_cons, ih before.reverse (List.reverse_reverse before)]

/-- A test that a carriage return passes and a line feed does not goes on up to the line feed. -/
theorem takeWhile_withReturns_return (hfeed : test '\n' = false) (hreturn : test '\r' = true)
    (text : List Char) :
    (withReturns text).takeWhile test = text.takeWhile test ++
      if text[(text.takeWhile test).length]? = some '\n' then ['\r'] else [] := by
  induction text with
  | nil => rfl
  | cons c rest ih =>
    by_cases hc : c = '\n'
    · simp [hc, hfeed, hreturn]
    · rw [withReturns_cons hc, List.takeWhile_cons, List.takeWhile_cons]
      cases htest : test c with
      | true => simp [ih]
      | false => simp [hc]

/-- A word without line ends starts the text as it did. -/
theorem isPrefixOf_withReturns {word : List Char} (hfeed : '\n' ∉ word) (hreturn : '\r' ∉ word)
    (text : List Char) : word.isPrefixOf (withReturns text) = word.isPrefixOf text := by
  induction word generalizing text with
  | nil => simp
  | cons d word ih =>
    rw [List.mem_cons, not_or] at hfeed hreturn
    cases text with
    | nil => rfl
    | cons c rest =>
      by_cases hc : c = '\n'
      · rw [hc, withReturns_feed, List.isPrefixOf, List.isPrefixOf,
          beq_false_of_ne (Ne.symm hreturn.1), beq_false_of_ne (Ne.symm hfeed.1)]
        rfl
      · rw [withReturns_cons hc, List.isPrefixOf, List.isPrefixOf, ih hfeed.2 hreturn.2]

/-- Where the text splits, so does the text with carriage returns. -/
theorem take_withReturns (count : Nat) (text : List Char) :
    (withReturns text).take (withReturns (text.take count)).length =
      withReturns (text.take count) := by
  conv => lhs; arg 2; rw [← List.take_append_drop count text, withReturns_append]
  exact List.take_left

theorem drop_withReturns (count : Nat) (text : List Char) :
    (withReturns text).drop (withReturns (text.take count)).length =
      withReturns (text.drop count) := by
  conv => lhs; arg 2; rw [← List.take_append_drop count text, withReturns_append]
  exact List.drop_left

end Reading

theorem byteLength_withReturns (text : List Char) :
    byteLength (withReturns text) = byteLength text + text.count '\n' := by
  induction text with
  | nil => rfl
  | cons c rest ih =>
    by_cases hc : c = '\n'
    · have hfeed : ('\n').utf8Size = 1 := rfl
      have hreturn : ('\r').utf8Size = 1 := rfl
      rw [hc, withReturns_feed, List.count_cons_self]
      simp only [byteLength, ih, hfeed, hreturn]
      omega
    · rw [withReturns_cons hc, List.count_cons_of_ne hc, byteLength, byteLength, ih]
      omega

def shift (text : List Char) (offset : Nat) : Nat := offset + (takeBytes offset text).count '\n'

section Shifting

variable {text : List Char}

theorem takeBytes_mono {first second : Nat} (h : first ≤ second) (text : List Char) :
    takeBytes first text <+: takeBytes second text := by
  induction text generalizing first second with
  | nil => exact List.prefix_rfl
  | cons c rest ih =>
    unfold takeBytes
    by_cases hfirst : first = 0
    · rw [if_pos hfirst]
      exact List.nil_prefix
    · rw [if_neg hfirst, if_neg (show second ≠ 0 by omega)]
      exact List.cons_prefix_cons.mpr ⟨rfl, ih (by omega)⟩

theorem strictMono_shift (text : List Char) : StrictMono (shift text) := by
  intro first second hlt
  have hcount := (takeBytes_mono (Nat.le_of_lt hlt) text).sublist.count_le '\n'
  unfold shift
  omega

@[simp]
theorem shift_le_shift {first second : Nat} :
    shift text first ≤ shift text second ↔ first ≤ second := (strictMono_shift text).le_iff_le

@[simp]
theorem shift_lt_shift {first second : Nat} :
    shift text first < shift text second ↔ first < second := (strictMono_shift text).lt_iff_lt

@[simp]
theorem shift_inj {first second : Nat} : shift text first = shift text second ↔ first = second :=
  (strictMono_shift text).injective.eq_iff

@[simp]
theorem shift_zero (text : List Char) : shift text 0 = 0 := by
  simp [shift]

/-- The end of a beginning of the text moves to the end of that beginning. -/
theorem shift_byteLength (first second : List Char) :
    shift (first ++ second) (byteLength first) = byteLength (withReturns first) := by
  unfold shift
  rw [takeBytes_byteLength, byteLength_withReturns]

variable {part : List Char} {start : Nat}

theorem Stands.shift_stop (h : Stands text part start) :
    shift text (start + byteLength part) = shift text start + byteLength (withReturns part) := by
  obtain ⟨before, after, rfl, rfl⟩ := h
  rw [shift_byteLength, ← List.append_assoc, ← byteLength_append, shift_byteLength,
    withReturns_append, byteLength_append]

/-- A part without line feeds takes as many bytes as before. -/
theorem Stands.shift_stop_of_not_mem (h : Stands text part start) (hfeed : '\n' ∉ part) :
    shift text (start + byteLength part) = shift text start + byteLength part := by
  rw [h.shift_stop, withReturns_of_not_mem hfeed]

/-- What lies between two places where the text splits. -/
theorem takeBytes_shift {first between after : List Char}
    (htext : text = first ++ between ++ after) :
    takeBytes (shift text (byteLength first + byteLength between) - shift text (byteLength first))
        (dropBytes (shift text (byteLength first)) (withReturns text)) =
      withReturns between := by
  have hstart : shift text (byteLength first) = byteLength (withReturns first) := by
    rw [htext, List.append_assoc, shift_byteLength]
  have hstop : shift text (byteLength first + byteLength between) =
      byteLength (withReturns first) + byteLength (withReturns between) := by
    rw [htext, ← byteLength_append, shift_byteLength, withReturns_append, byteLength_append]
  rw [hstart, hstop, Nat.add_sub_cancel_left, htext, withReturns_append, withReturns_append,
    List.append_assoc, dropBytes_byteLength, takeBytes_byteLength]

end Shifting

end UnusedImports.Text

namespace UnusedImports.Extent

def shift (text : List Char) (extent : Extent) : Extent :=
  ⟨Text.shift text extent.start, Text.shift text extent.stop⟩

@[simp]
theorem start_shift (text : List Char) (extent : Extent) :
    (extent.shift text).start = Text.shift text extent.start := rfl

@[simp]
theorem stop_shift (text : List Char) (extent : Extent) :
    (extent.shift text).stop = Text.shift text extent.stop := rfl

@[simp]
theorem contains_shift (text : List Char) (extent : Extent) (offset : Nat) :
    (extent.shift text).contains (Text.shift text offset) = extent.contains offset := by
  simp [contains]

end UnusedImports.Extent
