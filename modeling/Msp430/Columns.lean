/-
# Lines of columns

Text that is printed in lines, a line in columns with tabs between them, and a column as a list
with commas: what a reader takes from it, and that nothing is lost where the parts are free of
the bytes that separate them.
-/
import Msp430.CString

namespace CString

/-- The lines of a text that ends with a line. -/
def lines (s : Str) : List Str := (s.splitOn 0x0A).dropLast

/-- The columns of the first line. -/
def columns (s : Str) : List Str := (s.takeWhile (· != 0x0A)).splitOn 0x09

/-- The items of a list with commas, without the blanks before them. -/
def items (column : Str) : List Str := (column.splitOn 0x2C).map (List.dropWhile isSpace)

/-- The words of a text, with blanks, tabs or ends of lines between them. -/
def tokens (s : Str) : List Str := (s.splitOnP isSpace).filter fun w => !w.isEmpty

/-- A text without blanks, tabs, ends of lines and commas. -/
def plain (s : Str) : Bool := s.all fun c => !isSpace c && c != 0x2C

section Columns

variable {s t : Str}

@[simp] theorem plain_append (s t : Str) : plain (s ++ t) = (plain s && plain t) :=
  List.all_append

/-- Digits to base 16 are plain. -/
theorem plain_of_isDigit (h : ∀ c ∈ s, isDigit 16 c = true) : plain s = true := by
  have hall : ∀ c : BitVec 8, isDigit 16 c = true → (!isSpace c && c != 0x2C) = true := by
    decide +kernel
  exact List.all_eq_true.mpr fun c hc => hall c (h c hc)

theorem isSpace_of_plain (h : plain s = true) : ∀ c ∈ s, isSpace c = false := by
  intro c hc
  have hboth := List.all_eq_true.mp h c hc
  rw [Bool.and_eq_true, Bool.not_eq_true'] at hboth
  exact hboth.1

theorem not_mem_of_plain (h : plain s = true) {c : BitVec 8} (hc : isSpace c = true) : c ∉ s := by
  intro hmem
  rw [isSpace_of_plain h c hmem] at hc
  contradiction

theorem comma_not_mem_of_plain (h : plain s = true) : (0x2C : BitVec 8) ∉ s := by
  intro hmem
  exact absurd (List.all_eq_true.mp h _ hmem) (by decide)

theorem dropWhile_isSpace_of_plain (h : plain s = true) : s.dropWhile isSpace = s := by
  cases s with
  | nil => rfl
  | cons c s =>
    have hc := isSpace_of_plain h c List.mem_cons_self
    rw [List.dropWhile_cons_of_neg (by rw [hc]; decide)]

/-- Lines printed one after the other. -/
theorem lines_flatMap {α : Type} (f : α → Str) (xs : List α)
    (h : ∀ x ∈ xs, (0x0A : BitVec 8) ∉ f x) :
    lines (xs.flatMap fun x => f x ++ bytes "\n") = xs.map f := by
  have hsplit : (xs.flatMap fun x => f x ++ bytes "\n").splitOn 0x0A = xs.map f ++ [[]] := by
    induction xs with
    | nil => rfl
    | cons x xs ih =>
      obtain ⟨hx, hxs⟩ := List.forall_mem_cons.mp h
      rw [List.flatMap_cons, List.append_assoc]
      change (f x ++ 0x0A :: _).splitOn 0x0A = _
      rw [List.splitOn_append_cons_self_of_not_mem hx, List.map_cons, List.cons_append]
      exact congrArg _ (ih hxs)
  rw [lines, hsplit, List.dropLast_concat]

/-- The part of a text before the end of the line. -/
theorem takeWhile_line (hs : (0x0A : BitVec 8) ∉ s) :
    (s ++ t).takeWhile (· != 0x0A) = s ++ t.takeWhile (· != 0x0A) := by
  refine List.takeWhile_append_of_pos fun c hc => ?_
  rw [bne_iff_ne]
  rintro rfl
  exact hs hc

/-- A line has the columns of its text. -/
theorem columns_line (hs : (0x0A : BitVec 8) ∉ s) : columns (s ++ bytes "\n") = columns s := by
  have hnil := takeWhile_line (t := []) hs
  rw [List.append_nil] at hnil
  rw [columns, columns, takeWhile_line hs, hnil]
  rfl

/-- A column and those behind it. -/
theorem columns_cons (htab : (0x09 : BitVec 8) ∉ s) (hline : (0x0A : BitVec 8) ∉ s) (t : Str) :
    columns (s ++ bytes "\t" ++ t) = s :: columns t := by
  have hs : (0x0A : BitVec 8) ∉ s ++ bytes "\t" := by
    rw [List.mem_append, not_or]
    exact ⟨hline, by decide⟩
  rw [columns, takeWhile_line hs, List.append_assoc]
  exact List.splitOn_append_cons_self_of_not_mem htab _

/-- The last column of a line. -/
theorem columns_last (htab : (0x09 : BitVec 8) ∉ s) (hline : (0x0A : BitVec 8) ∉ s) (t : Str) :
    columns (s ++ bytes "\n" ++ t) = [s] := by
  rw [columns, List.append_assoc, takeWhile_line hline]
  change (s ++ []).splitOn _ = _
  rw [List.append_nil, List.splitOn_eq_singleton htab]

/-- A list of one item. -/
theorem items_single (h : plain s = true) : items s = [s] := by
  rw [items, List.splitOn_eq_singleton (comma_not_mem_of_plain h), List.map_singleton,
    dropWhile_isSpace_of_plain h]

/-- A list of two items. -/
theorem items_pair (hs : plain s = true) (ht : plain t = true) :
    items (s ++ bytes ", " ++ t) = [s, t] := by
  have hcomma : (0x2C : BitVec 8) ∉ (0x20 : BitVec 8) :: t := by
    rw [List.mem_cons, not_or]
    exact ⟨by decide, comma_not_mem_of_plain ht⟩
  rw [items, List.append_assoc]
  change List.map _ ((s ++ 0x2C :: 0x20 :: t).splitOn 0x2C) = _
  rw [List.splitOn_append_cons_self_of_not_mem (comma_not_mem_of_plain hs),
    List.splitOn_eq_singleton hcomma, List.map_cons, List.map_singleton,
    dropWhile_isSpace_of_plain hs, List.dropWhile_cons_of_pos (by decide),
    dropWhile_isSpace_of_plain ht]

/-- Blanks before a text. -/
theorem tokens_blanks (hs : ∀ c ∈ s, isSpace c = true) (t : Str) : tokens (s ++ t) = tokens t := by
  induction s with
  | nil => rfl
  | cons c s ih =>
    obtain ⟨hc, hs⟩ := List.forall_mem_cons.mp hs
    have hsplit : (c :: (s ++ t)).splitOnP isSpace = [] :: (s ++ t).splitOnP isSpace :=
      List.splitOnP_append_cons_of_forall_mem (List.forall_mem_nil _) c hc _
    rw [List.cons_append, tokens, hsplit]
    exact ih hs

/-- A word, with blanks behind it. -/
theorem tokens_word (hne : s ≠ []) (hs : ∀ c ∈ s, isSpace c = false) {blanks : Str}
    (hblanks : ∀ c ∈ blanks, isSpace c = true) (hsome : blanks ≠ []) (t : Str) :
    tokens (s ++ blanks ++ t) = s :: tokens t := by
  obtain ⟨c, blanks, rfl⟩ := List.exists_cons_of_ne_nil hsome
  obtain ⟨hc, hrest⟩ := List.forall_mem_cons.mp hblanks
  have hsplit : (s ++ c :: (blanks ++ t)).splitOnP isSpace
      = s :: (blanks ++ t).splitOnP isSpace :=
    List.splitOnP_append_cons_of_forall_mem hs c hc _
  rw [List.append_assoc, List.cons_append, tokens, hsplit,
    List.filter_cons_of_pos (by rw [Bool.not_eq_true', List.isEmpty_eq_false_iff]; exact hne)]
  exact congrArg (s :: ·) (tokens_blanks hrest t)

end Columns

end CString
