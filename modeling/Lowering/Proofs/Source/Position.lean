import Mathlib.Data.String.Basic
import Lowering.Source.File
/-!
# Where positions point

Positions are found by going over the text character by character, and lines are cut off in a pass of their own. The two
agree as long as the column counts the characters that the current line has so far: the position of a character says in
which line it is and where, unless it is one of the characters that end the line (`positionOf_points`).
-/

namespace Lowering

open List

/-- Further up, or further left in the same line. -/
def Position.Before (p q : Position) : Prop := p.line < q.line ∨ p.line = q.line ∧ p.column < q.column

namespace SourceFile

open String (utf8Len)

variable {p : Position} {line before after cs : List Char} {c : Char}

/-! ### Offsets -/

theorem before_advance (p : Position) (c : Char) : p.Before (advance p c) := by
  unfold advance Position.Before
  split <;> simp

theorem before_foldl_advance (h : cs ≠ []) (p : Position) : p.Before (cs.foldl advance p) := by
  induction cs generalizing p with
  | nil => exact absurd rfl h
  | cons c cs ih =>
    have hfirst := before_advance p c
    by_cases hcs : cs = []
    · rwa [hcs]
    have hrest := ih hcs (advance p c)
    unfold Position.Before at hfirst hrest ⊢
    rw [foldl_cons]
    omega

theorem line_le_foldl_advance (p : Position) (cs : List Char) : p.line ≤ (cs.foldl advance p).line := by
  by_cases hcs : cs = []
  · rw [hcs, foldl_nil]
  obtain h | h := before_foldl_advance hcs p
  · exact h.le
  · exact h.1.le

theorem walk_append (p : Position) (before rest : List Char) (offset : Nat) :
    walk p (before ++ rest) (utf8Len before + offset) = walk (before.foldl advance p) rest offset := by
  induction before generalizing p with
  | nil => simp
  | cons c before ih =>
    rw [cons_append, walk, String.utf8Len_cons, if_neg (by omega), foldl_cons, ← ih]
    congr 1
    omega

/-- The position of a boundary between characters is that of all characters in front of it. -/
theorem positionOf_boundary {f : SourceFile} (h : f.contents.toList = before ++ after) :
    f.positionOf (utf8Len before) = before.foldl advance ⟨1, 1⟩ := by
  rw [positionOf, h, ← Nat.add_zero (utf8Len before), walk_append]
  cases after with
  | nil => rfl
  | cons c after => exact if_pos c.utf8Size_pos

/-! ### Lines -/

theorem linesFrom_cons (hc : c ≠ '\n') : linesFrom line (c :: cs) = linesFrom (c :: line) cs := by
  rw [linesFrom]
  simpa using hc

theorem linesFrom_newline (line cs : List Char) :
    ∃ row, linesFrom line ('\n' :: cs) = row :: linesFrom [] cs ∧ (line.head? ≠ some '\r' → row = line.reverse) := by
  by_cases hline : ∃ rest, line = '\r' :: rest
  · obtain ⟨rest, rfl⟩ := hline
    exact ⟨rest.reverse, by rw [linesFrom], by simp⟩
  refine ⟨line.reverse, ?_, fun _ => rfl⟩
  rw [linesFrom]
  exact fun rest h => hline ⟨rest, h⟩

/-- The line that a character stands in begins with what was in front of it and the character, unless that ends the
line. -/
theorem exists_line (line : List Char) (hc : c ≠ '\n') (hend : ¬ (c = '\r' ∧ cs.head? = some '\n')) :
    ∃ row rows, linesFrom line (c :: cs) = row :: rows ∧ (c :: line).reverse <+: row := by
  rw [linesFrom_cons hc]
  induction cs generalizing line c with
  | nil => exact ⟨_, [], by rw [linesFrom]; rfl, prefix_rfl⟩
  | cons d cs ih =>
    by_cases hd : d = '\n'
    · subst hd
      obtain ⟨row, hrows, hrow⟩ := linesFrom_newline (c :: line) cs
      exact ⟨row, _, hrows, hrow (by simpa using hend) ▸ prefix_rfl⟩
    rw [linesFrom_cons hd]
    by_cases hends : d = '\r' ∧ cs.head? = some '\n'
    · obtain ⟨rfl, hcs⟩ := hends
      obtain ⟨cs, rfl⟩ := List.head?_eq_some_iff.1 hcs
      exact ⟨_, _, by rw [linesFrom], prefix_rfl⟩
    · obtain ⟨row, rows, hrows, hbegins⟩ := ih (c :: line) hd hends
      exact ⟨row, rows, hrows, List.IsPrefix.trans (by simp) hbegins⟩

/-- A character is found in the line, and at the place there, that the characters in front of it lead to. -/
theorem exists_character (hcolumn : p.column = line.length + 1) (before : List Char) (hc : c ≠ '\n')
    (hend : ¬ (c = '\r' ∧ after.head? = some '\n')) :
    ∃ row, (linesFrom line (before ++ c :: after))[(before.foldl advance p).line - p.line]? = some row ∧
      1 ≤ (before.foldl advance p).column ∧ row[(before.foldl advance p).column - 1]? = some c := by
  induction before generalizing line p with
  | nil =>
    obtain ⟨row, rows, hrows, rest, rfl⟩ := exists_line line hc hend
    refine ⟨(c :: line).reverse ++ rest, ?_, by simp [hcolumn]⟩
    rw [foldl_nil, Nat.sub_self, nil_append, hrows, List.getElem?_cons_zero]
  | cons d before ih =>
    rw [cons_append, foldl_cons]
    by_cases hd : d = '\n'
    · subst hd
      have hlines := line_le_foldl_advance ⟨p.line + 1, 1⟩ before
      obtain ⟨row, hrow, hcol⟩ := ih (p := ⟨p.line + 1, 1⟩) (show 1 = [].length + 1 from rfl)
      refine ⟨row, ?_, hcol⟩
      have hadvance : advance p '\n' = ⟨p.line + 1, 1⟩ := rfl
      obtain ⟨k, hk⟩ := Nat.exists_eq_add_of_le hlines
      rw [hk, Nat.add_sub_cancel_left] at hrow
      obtain ⟨first, hfirst, -⟩ := linesFrom_newline line (before ++ c :: after)
      rw [hadvance, hk, show p.line + 1 + k - p.line = k + 1 by omega, hfirst, List.getElem?_cons_succ, hrow]
    have hadvance : advance p d = ⟨p.line, p.column + 1⟩ := if_neg hd
    rw [linesFrom_cons hd, hadvance]
    exact ih (by simp [hcolumn])

/-- **`positionOf` points at the characters of the text.** The position of a character, which is that of all its bytes,
is the line of `lines` it is in and its place there, unless it belongs to the end of the line. Offsets beyond the text
have the position of its end, and positions of the boundaries between characters grow. -/
theorem positionOf_points (f : SourceFile) :
    (∀ before c after, f.contents.toList = before ++ c :: after →
      let p := f.positionOf (utf8Len before)
      (∀ k < c.utf8Size, f.positionOf (utf8Len before + k) = p) ∧
      (c ≠ '\n' → ¬ (c = '\r' ∧ after.head? = some '\n') →
        ∃ row, 1 ≤ p.line ∧ (lines f.contents)[p.line - 1]? = some row ∧ 1 ≤ p.column ∧ row[p.column - 1]? = some c)) ∧
    (∀ offset, f.contents.utf8ByteSize ≤ offset → f.positionOf offset = f.positionOf f.contents.utf8ByteSize) ∧
    ∀ before between after, f.contents.toList = before ++ between ++ after → between ≠ [] →
      (f.positionOf (utf8Len before)).Before (f.positionOf (utf8Len (before ++ between))) := by
  refine ⟨fun before c after h => ?_, fun offset hoffset => ?_, fun before between after h hne => ?_⟩
  · rw [positionOf_boundary h]
    refine ⟨fun k hk => ?_, fun hc hend => ?_⟩
    · rw [positionOf, h, walk_append, walk, if_pos hk]
    · obtain ⟨row, hrow, hcolumn⟩ := exists_character (p := ⟨1, 1⟩) (show 1 = [].length + 1 from rfl) before hc hend
      exact ⟨row, line_le_foldl_advance ⟨1, 1⟩ before, by rwa [lines, h], hcolumn⟩
  · have hsize : f.contents.utf8ByteSize = utf8Len f.contents.toList := by
      rw [← String.utf8ByteSize_ofList, String.ofList_toList]
    obtain ⟨more, rfl⟩ := Nat.exists_eq_add_of_le hoffset
    have hbeyond (k : Nat) : f.positionOf (utf8Len f.contents.toList + k) = f.contents.toList.foldl advance ⟨1, 1⟩ := by
      have hwalk := walk_append ⟨1, 1⟩ f.contents.toList [] k
      rwa [append_nil] at hwalk
    rw [hsize, hbeyond, ← Nat.add_zero (utf8Len _), hbeyond]
  · rw [positionOf_boundary h, positionOf_boundary ((append_assoc ..).symm.trans h.symm).symm, foldl_append]
    exact before_foldl_advance hne _

end SourceFile

end Lowering
