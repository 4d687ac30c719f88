import UnusedImports.Proofs.Text.Slice
import UnusedImports.Proofs.Token.Layout
import UnusedImports.Proofs.Token.ShortName

/-!
Where the lexer stands. Between two steps its cursor is between two characters of the text, and what
it still has to read is what the text holds from there on. All that is open was opened between two
characters as well, at the cursor or before it. So each token is a stretch of whole characters, also
where the text cannot be cut in the end, and so is each fault.
-/
namespace UnusedImports.Token

open UnusedImports.Text

def Frame.opened : Frame → Nat
  | .literal _ opened => opened
  | .hole opened _ => opened

namespace Lexer

def Placed (text : List Char) (lexer : Lexer) : Prop :=
  ∃ read, text = read ++ lexer.rest ∧ byteLength read = lexer.cursor

def OpenedBefore (text : List Char) (lexer : Lexer) : Prop :=
  ∀ frame ∈ lexer.frames, SplitsAt text frame.opened ∧ frame.opened ≤ lexer.cursor

section States

variable {text remaining : List Char} {lexer next : Lexer} {c : Char} {rest : List Char}

theorem Leaves.splitsAt (h : lexer.Leaves text remaining) : SplitsAt text lexer.reached := by
  obtain ⟨read, htext, hread⟩ := h
  exact ⟨read, remaining, htext, hread⟩

theorem Placed.splitsAt (h : lexer.Placed text) : SplitsAt text lexer.cursor := by
  obtain ⟨read, htext, hread⟩ := h
  exact ⟨read, lexer.rest, htext, hread⟩

theorem Invariant.placed (h : Invariant text lexer) : lexer.Placed text := by
  have hpiece : byteLength lexer.piece.reverse = byteLength lexer.piece := by
    induction lexer.piece with
    | nil => rfl
    | cons c piece ih =>
      rw [List.reverse_cons, byteLength_append, ih]
      simp only [byteLength]
      omega
  obtain ⟨read, htext, hread⟩ := h.laid.leaves
  refine ⟨read ++ lexer.piece.reverse, by rw [htext, List.append_assoc], ?_⟩
  rw [byteLength_append, hread, hpiece]
  rfl

theorem cursor_le_of_step (h : lexer.Placed text) (hnext : next.Placed text)
    (hrest : lexer.rest = c :: rest) (hstep : lexer.step c rest = .ok next) :
    lexer.cursor ≤ next.cursor := by
  obtain ⟨read, htext, hread⟩ := h
  obtain ⟨read', htext', hread'⟩ := hnext
  have hlength := rest_length_step lexer next c rest hstep
  rw [hrest] at htext
  rcases List.append_eq_append_iff.mp (htext.symm.trans htext') with
    ⟨more, rfl, -⟩ | ⟨more, -, hlater⟩
  · rw [byteLength_append] at hread'
    omega
  · have hlonger := congrArg List.length hlater
    simp only [List.length_append, List.length_cons] at hlonger
    omega

theorem exists_opened_of_countBraces {frames : List Frame} {frame : Frame}
    (h : frame ∈ countBraces c frames) : ∃ other ∈ frames, other.opened = frame.opened := by
  unfold countBraces at h
  split at h
  · rename_i opened braces outer
    rcases List.mem_cons.mp h with rfl | hmem
    · exact ⟨_, List.mem_cons_self, rfl⟩
    · exact ⟨frame, List.mem_cons_of_mem _ hmem, rfl⟩
  · exact ⟨frame, h, rfl⟩

/-- What a step opens starts where a token could. -/
theorem OpenedBefore.step (h : lexer.OpenedBefore text) (hreads : Reads text lexer)
    (hrest : lexer.rest = c :: rest) (hstep : lexer.step c rest = .ok next) :
    next.OpenedBefore text := by
  have hinvariant := hreads.invariant
  have hle := cursor_le_of_step hinvariant.placed (hreads.step hrest hstep).invariant.placed
    hrest hstep
  have hkept : ∀ frame ∈ lexer.frames, SplitsAt text frame.opened ∧ frame.opened ≤ next.cursor :=
    fun frame hmem => ⟨(h frame hmem).1, Nat.le_trans (h frame hmem).2 hle⟩
  cases moves_of_step hstep with
  | token _ _ _ =>
    intro frame hmem
    obtain ⟨other, hother, heq⟩ := exists_opened_of_countBraces hmem
    exact heq ▸ hkept other hother
  | openLiteral _ _ _ =>
    exact List.forall_mem_cons.mpr
      ⟨⟨hinvariant.laid.leaves.splitsAt, Nat.le_add_right _ _⟩, hkept⟩
  | closeHole hframes _ =>
    exact fun frame hmem => hkept frame (hframes ▸ List.mem_cons_of_mem _ hmem)
  | closeLiteral hframes _ =>
    exact fun frame hmem => hkept frame (hframes ▸ List.mem_cons_of_mem _ hmem)
  | plain _ _ _ => exact hkept
  | escaped _ _ _ _ => exact hkept
  | openHole hframes _ _ _ =>
    have hflush := (hinvariant.flush (by rw [hframes]; rfl)).leaves
    refine List.forall_mem_cons.mpr ⟨⟨hflush.splitsAt, ?_⟩, ?_⟩
    · exact Nat.le_trans (Nat.le_add_right _ _) (Nat.le_add_right _ _)
    · rw [frames_flush]
      exact hkept
  | @shortName _ _ _ d after _ _ _ _ _ =>
    have hframes : ((lexer.flush.emit .interpolationStart lexer.flush.depth ['$']).namePath
        (lexer.flush.depth + 1) d after).frames = lexer.frames :=
      (frames_namePath _ _ d after).trans (frames_flush lexer)
    exact fun frame hmem => hkept frame (hframes ▸ hmem)

theorem Reads.openedBefore (h : Reads text lexer) : lexer.OpenedBefore text := by
  induction h with
  | start =>
    rw [OpenedBefore, frames_start]
    simp
  | step hreads hrest hstep ih => exact ih.step hreads hrest hstep

/-- A token that was made is a stretch of whole characters. -/
theorem Reads.whole (h : Reads text lexer) {token : Token} (hmem : token ∈ lexer.tokens) :
    Whole text token.extent := by
  have hcovers := h.invariant.laid.covers
    [(lexer.reached, lexer.piece.reverse ++ lexer.rest)] ⟨rfl, [], by simp, rfl⟩
  have hstands : Stands text token.text.toList token.start :=
    hcovers.stands (show token.part ∈ _ from
      List.mem_append_left _ (List.mem_map_of_mem (List.mem_reverse.mpr hmem)))
  exact hstands.whole

/-- A text that cannot be cut is read up to where a step fails or the text ends. -/
theorem exists_reads_of_run_error (h : Reads text lexer) {fault : LexFault}
    (hrun : lexer.run = .error fault) :
    ∃ last, Reads text last ∧ (last.finish = .error fault ∨
      ∃ c rest, last.rest = c :: rest ∧ last.step c rest = .error fault) := by
  fun_induction Lexer.run lexer with
  | case1 lexer hrest => exact ⟨lexer, h, Or.inl hrun⟩
  | case2 lexer c rest hrest failure hstep =>
    obtain rfl := Except.error.inj hrun
    exact ⟨lexer, h, Or.inr ⟨c, rest, hrest, hstep⟩⟩
  | case3 lexer c rest hrest next hstep ih => exact ih (h.step hrest hstep) hrun

end States

section Faults

variable {text : List Char} {lexer : Lexer} {c : Char} {rest : List Char} {fault : LexFault}

theorem Reads.whole_opened (h : Reads text lexer) {frame : Frame} (hmem : frame ∈ lexer.frames) :
    Whole text ⟨frame.opened, lexer.cursor⟩ :=
  (h.openedBefore frame hmem).1.whole h.invariant.placed.splitsAt (h.openedBefore frame hmem).2

/-- The outermost interpolated expression is one of those that are open. -/
theorem exists_outermostHole (inner : Nat) (outer : List Frame) :
    outermostHole inner outer = inner ∨
      ∃ frame ∈ outer, outermostHole inner outer = frame.opened := by
  induction outer generalizing inner with
  | nil => exact Or.inl rfl
  | cons frame outer ih =>
    cases frame with
    | literal quoting opened =>
      exact (ih inner).imp_right fun ⟨other, hmem, heq⟩ => ⟨other, List.mem_cons_of_mem _ hmem, heq⟩
    | hole opened braces =>
      refine Or.inr ?_
      rcases ih opened with heq | ⟨other, hmem, heq⟩
      · exact ⟨_, List.mem_cons_self, heq⟩
      · exact ⟨other, List.mem_cons_of_mem _ hmem, heq⟩

theorem Reads.whole_of_finish (h : Reads text lexer) (hfinish : lexer.finish = .error fault) :
    Whole text fault.extent := by
  unfold finish at hfinish
  split at hfinish
  · simp at hfinish
  · rename_i quoting opened outer hframes
    obtain rfl := Except.error.inj hfinish
    exact h.whole_opened (by rw [hframes]; exact List.mem_cons_self)
  · rename_i opened braces outer hframes
    obtain rfl := Except.error.inj hfinish
    rcases exists_outermostHole opened outer with heq | ⟨frame, hmem, heq⟩
    · rw [heq]
      exact h.whole_opened (by rw [hframes]; exact List.mem_cons_self)
    · rw [heq]
      exact h.whole_opened (by rw [hframes]; exact List.mem_cons_of_mem _ hmem)

theorem Reads.whole_of_codeStep (h : Reads text lexer) (hrest : lexer.rest = c :: rest)
    (hcode : isCode lexer.frames = true) (hstep : lexer.codeStep c rest = .error fault) :
    Whole text fault.extent := by
  unfold codeStep at hstep
  split at hstep
  · simp at hstep
  · simp at hstep
  · rename_i cause more hhead
    obtain rfl := Except.error.inj hstep
    obtain ⟨read, htext, hread⟩ := h.invariant.laid.leaves
    rw [h.invariant.piece_nil hcode, hrest] at htext
    have hstands : Stands text (c :: rest.take more) lexer.reached :=
      ⟨read, rest.drop more, by rw [htext]; simp, hread⟩
    exact hstands.whole

theorem Reads.whole_of_literalStep (h : Reads text lexer) {quoting : Quoting} {opened : Nat}
    {outer : List Frame} (hframes : lexer.frames = .literal quoting opened :: outer)
    (hstep : lexer.literalStep quoting opened outer c rest = .error fault) :
    Whole text fault.extent := by
  unfold literalStep at hstep
  split at hstep
  · simp at hstep
  split at hstep
  · obtain rfl := Except.error.inj hstep
    exact h.whole_opened (by rw [hframes]; exact List.mem_cons_self)
  cases rest with
  | nil => simp at hstep
  | cons next after =>
    simp only at hstep
    split at hstep
    · simp at hstep
    split at hstep
    · simp at hstep
    split at hstep
    · simp at hstep
    · simp at hstep

/-- Where a step fails, the fault is a stretch of whole characters. -/
theorem Reads.whole_of_step (h : Reads text lexer) (hrest : lexer.rest = c :: rest)
    (hstep : lexer.step c rest = .error fault) : Whole text fault.extent := by
  unfold Lexer.step at hstep
  split at hstep
  · rename_i quoting opened outer hframes
    exact h.whole_of_literalStep hframes hstep
  · rename_i opened outer hframes
    split at hstep
    · simp at hstep
    · exact h.whole_of_codeStep hrest (by rw [hframes]; rfl) hstep
  · rename_i hliteral _
    refine h.whole_of_codeStep hrest ?_ hstep
    unfold isCode
    split
    · rename_i quoting opened outer hframes
      exact absurd hframes (hliteral quoting opened outer)
    · rfl

end Faults

end Lexer

/-- The fault of a text that cannot be cut is a stretch of whole characters. -/
theorem whole_of_lex_error {text : List Char} {fault : LexFault}
    (h : lex text = .error fault) : Whole text fault.extent := by
  obtain ⟨last, hreads, hfinish | ⟨c, rest, hrest, hstep⟩⟩ :=
    Lexer.exists_reads_of_run_error .start h
  · exact hreads.whole_of_finish hfinish
  · exact hreads.whole_of_step hrest hstep

end UnusedImports.Token
