import Mathlib.Order.Bounds.Basic
import ConicForm.Text.FixedPoint
import ConicForm.Text.Table

/-!
# The layout of tables

A table is printed as lines of cells. A column is as wide as the most bytes that one of its texts
has, while the blanks in front of a text are counted in characters. No text has more characters than
bytes, so that none is cut off and all cells of a column have the same number of characters,
whatever the labels are written in: the columns stand at the same characters of all lines.

## Main definitions

* `Table.Consistent`: a table with rows and columns as its labels say
* `Table.Shows`: the text of a cell
* `Table.offset`: where a column starts
* `Table.Aligned`: lines that have the texts of a table in columns

## Main results

* `length_le_utf8ByteSize`: characters are not more than bytes
* `Table.isGreatest_columnWidths`: the width of a column
* `Table.render_aligned`: the lines of a table
-/

namespace ConicForm

/-! ## Characters and bytes -/

/-- No text has more characters than bytes. -/
theorem length_le_utf8ByteSize (s : String) : s.length ≤ s.utf8ByteSize := by
  refine String.push_induction s (fun s => s.length ≤ s.utf8ByteSize) le_rfl fun s c ih => ?_
  rw [String.length_push, String.utf8ByteSize_push]
  have := c.utf8Size_pos
  omega

theorem toList_pushn_empty (c : Char) (n : Nat) : ("".pushn c n).toList = List.replicate n c := by
  induction n with
  | zero => rfl
  | succ n ih =>
    show (("".pushn c n).push c).toList = _
    rw [String.toList_push, ih, List.replicate_succ']

section Intercalate

variable {τ : Type} (sep : List τ)

theorem intercalate_cons (x : List τ) (xs : List (List τ)) :
    sep.intercalate (x :: xs) = x ++ xs.flatMap (sep ++ ·) := by
  induction xs generalizing x with
  | nil => simp
  | cons y ys ih => rw [List.intercalate_cons_cons, ih, List.flatMap_cons]; simp

/-- What stands in front of a part and what stands behind it, with separators. -/
theorem intercalate_eq_append {xs : List (List τ)} {c : Nat} (hc : c < xs.length) :
    sep.intercalate xs =
      (xs.take c).flatMap (· ++ sep) ++ (xs[c] ++ (xs.drop (c + 1)).flatMap (sep ++ ·)) := by
  induction xs generalizing c with
  | nil => cases hc
  | cons x xs ih =>
    cases c with
    | zero => simp [intercalate_cons]
    | succ c =>
      have hc : c < xs.length := Nat.lt_of_succ_lt_succ hc
      obtain ⟨y, ys, rfl⟩ := List.exists_cons_of_length_pos (Nat.zero_lt_of_lt hc)
      rw [List.intercalate_cons_cons, ih hc]
      simp

end Intercalate

namespace Table

variable {α : Type}

/-! ## Lines -/

theorem toList_alignRight (width : Nat) (s : String) :
    (alignRight width s).toList = List.replicate (width - s.length) ' ' ++ s.toList := by
  rw [alignRight, String.toList_append, toList_pushn_empty]

theorem length_alignRight {width : Nat} {s : String} (h : s.length ≤ width) :
    (alignRight width s).length = width := by
  rw [alignRight, String.length_append, String.length_pushn, String.length_empty]
  omega

/-- Where a column starts: behind the columns before it and two blanks for each. -/
def offset (width : Nat → Nat) : Nat → Nat
  | 0 => 0
  | c + 1 => offset width c + width c + 2

/-- The characters in front of a column are as many as the columns before it take. -/
theorem length_front {τ : Type} {sep : List τ} (hsep : sep.length = 2) {xs : List (List τ)}
    {width : Nat → Nat} (h : ∀ c (hc : c < xs.length), xs[c].length = width c) {c : Nat}
    (hc : c ≤ xs.length) : ((xs.take c).flatMap (· ++ sep)).length = offset width c := by
  induction c with
  | zero => rfl
  | succ c ih =>
    have hlt : c < xs.length := hc
    rw [← List.take_append_getElem hlt, List.flatMap_append, List.length_append, ih hlt.le,
      List.flatMap_singleton, List.length_append, h c hlt, hsep, offset, Nat.add_assoc]

/-- A line without its end. -/
def body (widths : List Nat) (row : List String) : String :=
  "  ".intercalate (List.zipWith alignRight widths row)

section Body

variable {widths : List Nat} {row : List String} {s : String} {c : Nat}
  (hlength : widths.length = row.length)
  (hfit : ∀ c s, row[c]? = some s → s.length ≤ widths.getD c 0)

include hlength hfit

/-- **A text in its line.** The columns before it stand in front of the blanks that fill it up, and
two blanks stand behind it unless it is the last one. -/
theorem exists_toList_body_eq (hs : row[c]? = some s) : ∃ front filled behind,
    (body widths row).toList = front ++ (filled ++ behind) ∧
      filled = List.replicate (widths.getD c 0 - s.length) ' ' ++ s.toList ∧
      front.length = offset (widths.getD · 0) c ∧ filled.length = widths.getD c 0 ∧
      (c + 1 < row.length → [' ', ' '] <+: behind) ∧ (row.length ≤ c + 1 → behind = []) := by
  let texts := (List.zipWith alignRight widths row).map String.toList
  have hlen : texts.length = row.length := by simp [texts, hlength]
  have htext : ∀ k (hk : k < texts.length),
      texts[k] = (alignRight (widths.getD k 0) (row.get ⟨k, hlen ▸ hk⟩)).toList := by
    intro k hk
    have hk' : k < widths.length := hlength ▸ hlen ▸ hk
    simp [texts, hk']
  have hwidth : ∀ k (hk : k < texts.length), texts[k].length = widths.getD k 0 := by
    intro k hk
    rw [htext k hk, String.length_toList]
    exact length_alignRight (hfit k _ (List.getElem?_eq_getElem _))
  obtain ⟨hc, rfl⟩ := List.getElem?_eq_some_iff.mp hs
  rw [← hlen] at hc
  refine ⟨(texts.take c).flatMap (· ++ [' ', ' ']), texts[c],
    (texts.drop (c + 1)).flatMap ([' ', ' '] ++ ·), ?_, ?_, ?_, hwidth c hc, ?_, ?_⟩
  · rw [body, String.toList_intercalate]
    exact intercalate_eq_append _ hc
  · rw [htext c hc, toList_alignRight]
    rfl
  · exact length_front rfl hwidth hc.le
  · intro hlt
    rw [List.drop_eq_getElem_cons (hlen ▸ hlt), List.flatMap_cons, List.append_assoc]
    exact List.prefix_append ..
  · intro hle
    rw [List.drop_eq_nil_of_le (hlen ▸ hle)]
    rfl

theorem slice_body (hs : row[c]? = some s) :
    ((body widths row).toList.drop (offset (widths.getD · 0) c)).take (widths.getD c 0) =
      List.replicate (widths.getD c 0 - s.length) ' ' ++ s.toList := by
  obtain ⟨front, filled, behind, hbody, hfilled, hfront, hwidth, -⟩ :=
    exists_toList_body_eq hlength hfit hs
  rw [hbody, ← hfront, List.drop_left, ← hfilled]
  exact List.take_left' hwidth

theorem gap_body (hc : c + 1 < row.length) : ((body widths row).toList.drop
    (offset (widths.getD · 0) c + widths.getD c 0)).take 2 = [' ', ' '] := by
  obtain ⟨front, filled, behind, hbody, -, hfront, hwidth, hgap, -⟩ :=
    exists_toList_body_eq hlength hfit (List.getElem?_eq_getElem (Nat.lt_of_succ_lt hc))
  obtain ⟨rest, rfl⟩ := hgap hc
  rw [hbody, ← hfront, ← hwidth, ← List.drop_drop, List.drop_left, List.drop_left]
  rfl

theorem length_body (hc : row.length = c + 1) :
    (body widths row).length = offset (widths.getD · 0) c + widths.getD c 0 := by
  have hlt : c < row.length := by omega
  obtain ⟨front, filled, behind, hbody, -, hfront, hwidth, -, hlast⟩ :=
    exists_toList_body_eq hlength hfit (List.getElem?_eq_getElem hlt)
  rw [← String.length_toList, hbody, hlast hc.le, List.append_nil, List.length_append, hfront,
    hwidth]

end Body

/-! ## Texts of cells -/

/-- A table that has coefficients, a relation and a right-hand side for each label of a row, and a
coefficient for each label of a column. -/
structure Consistent (t : Table α) : Prop where
  nrows : t.coefficients.nrows = t.nrows
  ncols : t.coefficients.ncols = t.ncols
  senses : t.senses.length = t.nrows
  constants : t.constants.length = t.nrows

/-- The text of a cell, numbers being written by `cell`. The header is row zero, and the labels of
rows are column zero. -/
inductive Shows (t : Table α) (cell : α → String) : Nat → Nat → String → Prop
  | corner : t.Shows cell 0 0 ""
  | colLabel {j : Nat} {s : String} (h : t.colLabels[j]? = some s) : t.Shows cell 0 (j + 1) s
  | senseTitle : t.Shows cell 0 (t.ncols + 1) "sense"
  | constantTitle : t.Shows cell 0 (t.ncols + 2) "constant"
  | rowLabel {i : Nat} {s : String} (h : t.rowLabels[i]? = some s) : t.Shows cell (i + 1) 0 s
  | coefficient {i j : Nat} {r : List α} {x : α} (hr : t.coefficients.rows[i]? = some r)
    (hx : r[j]? = some x) : t.Shows cell (i + 1) (j + 1) (cell x)
  | sense {i : Nat} {s : Sense} (h : t.senses[i]? = some s) :
    t.Shows cell (i + 1) (t.ncols + 1) s.text
  | constant {i : Nat} {x : α} (h : t.constants[i]? = some x) :
    t.Shows cell (i + 1) (t.ncols + 2) (cell x)

section Cells

variable {t : Table α} {cell : α → String} {c : Nat} {s : String}

/-- The elements of a list between one element and two. -/
theorem getElem?_framed {τ : Type} {x a b y : τ} {l : List τ} {c : Nat} :
    (x :: l ++ [a, b])[c]? = some y ↔ c = 0 ∧ x = y ∨ (∃ j, c = j + 1 ∧ l[j]? = some y) ∨
      c = l.length + 1 ∧ a = y ∨ c = l.length + 2 ∧ b = y := by
  rcases c with _ | c
  · simp
  · rw [List.cons_append, List.getElem?_cons_succ]
    rcases Nat.lt_trichotomy c l.length with hlt | rfl | hlt
    · rw [List.getElem?_append_left hlt]
      simp [hlt.ne, (Nat.lt_succ_of_lt hlt).ne]
    · simp
    · obtain ⟨k, rfl⟩ := Nat.exists_eq_add_of_lt hlt
      rw [List.getElem?_append_right hlt.le]
      rcases k with _ | k
      · simp
      · have hnone : l[l.length + (k + 1) + 1]? = none := List.getElem?_eq_none (by omega)
        rw [show l.length + (k + 1) + 1 - l.length = k + 2 by omega]
        simp [hnone, show l.length + (k + 1) + 1 ≠ l.length by omega]

theorem shows_zero_iff : t.Shows cell 0 c s ↔ t.header[c]? = some s := by
  rw [header, getElem?_framed]
  constructor
  · intro h
    cases h with
    | corner => exact .inl ⟨rfl, rfl⟩
    | colLabel h => exact .inr (.inl ⟨_, rfl, h⟩)
    | senseTitle => exact .inr (.inr (.inl ⟨rfl, rfl⟩))
    | constantTitle => exact .inr (.inr (.inr ⟨rfl, rfl⟩))
  · rintro (⟨rfl, rfl⟩ | ⟨j, rfl, h⟩ | ⟨rfl, rfl⟩ | ⟨rfl, rfl⟩)
    · exact .corner
    · exact .colLabel h
    · exact .senseTitle
    · exact .constantTitle

variable [Zero α]

/-- The parts of a row, all of which its cells show. -/
theorem Consistent.exists_rowCells (ht : t.Consistent) (cell : α → String) {i : Nat}
    (hi : i < t.nrows) : ∃ label r sense constant, t.rowLabels[i]? = some label ∧
      t.coefficients.rows[i]? = some r ∧ r.length = t.ncols ∧ t.senses[i]? = some sense ∧
      t.constants[i]? = some constant ∧
      t.rowCells cell label i = label :: r.map cell ++ [sense.text, cell constant] := by
  have hrow : i < t.coefficients.rows.length := hi.trans_eq ht.nrows.symm
  have hsense : i < t.senses.length := hi.trans_eq ht.senses.symm
  have hconstant : i < t.constants.length := hi.trans_eq ht.constants.symm
  have hlength : t.coefficients.rows[i].length = t.ncols :=
    (t.coefficients.length_row _ (List.getElem_mem hrow)).trans ht.ncols
  refine ⟨_, _, _, _, List.getElem?_eq_getElem hi, List.getElem?_eq_getElem hrow, hlength,
    List.getElem?_eq_getElem hsense, List.getElem?_eq_getElem hconstant, ?_⟩
  have hcells : (List.range t.ncols).map (fun j => cell (t.coefficients.get i j)) =
      t.coefficients.rows[i].map cell := by
    refine List.ext_getElem (by simp [hlength]) fun j _ hj => ?_
    have hj : j < t.coefficients.rows[i].length := by simpa using hj
    simp [DenseMatrix.get, hrow, hj]
  simp [rowCells, hcells, hsense, hconstant]

theorem Consistent.shows_succ_iff (ht : t.Consistent) {i : Nat} : t.Shows cell (i + 1) c s ↔
    ∃ label, t.rowLabels[i]? = some label ∧ (t.rowCells cell label i)[c]? = some s := by
  constructor
  · intro h
    have hi : i < t.nrows := by
      cases h with
      | rowLabel h => exact (List.getElem?_eq_some_iff.mp h).1
      | coefficient h => exact (List.getElem?_eq_some_iff.mp h).1.trans_eq ht.nrows
      | sense h => exact (List.getElem?_eq_some_iff.mp h).1.trans_eq ht.senses
      | constant h => exact (List.getElem?_eq_some_iff.mp h).1.trans_eq ht.constants
    obtain ⟨label, r, sense, constant, hlabel, hr, hlength, hsense, hconstant, hcells⟩ :=
      ht.exists_rowCells cell hi
    refine ⟨label, hlabel, ?_⟩
    rw [hcells, getElem?_framed, List.length_map, hlength]
    cases h with
    | rowLabel h => exact .inl ⟨rfl, Option.some.inj (hlabel.symm.trans h)⟩
    | coefficient hr' hx =>
      obtain rfl := Option.some.inj (hr.symm.trans hr')
      exact .inr (.inl ⟨_, rfl, by rw [List.getElem?_map, hx]; rfl⟩)
    | sense h =>
      obtain rfl := Option.some.inj (hsense.symm.trans h)
      exact .inr (.inr (.inl ⟨rfl, rfl⟩))
    | constant h =>
      obtain rfl := Option.some.inj (hconstant.symm.trans h)
      exact .inr (.inr (.inr ⟨rfl, rfl⟩))
  · rintro ⟨label', hlabel', h⟩
    obtain ⟨label, r, sense, constant, hlabel, hr, hlength, hsense, hconstant, hcells⟩ :=
      ht.exists_rowCells cell (List.getElem?_eq_some_iff.mp hlabel').1
    obtain rfl := Option.some.inj (hlabel.symm.trans hlabel')
    rw [hcells, getElem?_framed, List.length_map, hlength] at h
    rcases h with ⟨rfl, rfl⟩ | ⟨j, rfl, h⟩ | ⟨rfl, rfl⟩ | ⟨rfl, rfl⟩
    · exact .rowLabel hlabel
    · rw [List.getElem?_map] at h
      obtain ⟨x, hx, rfl⟩ := Option.map_eq_some_iff.mp h
      exact .coefficient hr hx
    · exact .sense hsense
    · exact .constant hconstant

/-- **The texts of all cells** are those of the lists of cells. -/
theorem Consistent.shows_iff (ht : t.Consistent) {r : Nat} : t.Shows cell r c s ↔
    ∃ row, (t.cells cell)[r]? = some row ∧ row[c]? = some s := by
  rcases r with _ | i
  · rw [shows_zero_iff]
    simp [cells]
  · rw [ht.shows_succ_iff]
    simp [cells]

theorem length_of_mem_cells {row : List String} (h : row ∈ t.cells cell) :
    row.length = t.ncols + 3 := by
  rcases List.mem_cons.mp h with rfl | h
  · exact length_header t
  · obtain ⟨q, -, rfl⟩ := List.mem_map.mp h
    exact length_rowCells ..

theorem length_cells : (t.cells cell).length = t.nrows + 1 := by
  simp [cells, nrows]

/-- Every cell has one text. -/
theorem Consistent.existsUnique_shows (ht : t.Consistent) (cell : α → String) {r : Nat}
    (hr : r ≤ t.nrows) (hc : c ≤ t.ncols + 2) : ∃! s, t.Shows cell r c s := by
  have hr : r < (t.cells cell).length := by rw [length_cells]; omega
  have hc : c < (t.cells cell)[r].length := by
    rw [length_of_mem_cells (List.getElem_mem hr)]
    omega
  simp only [ht.shows_iff, List.getElem?_eq_getElem hr, Option.some.injEq, exists_eq_left',
    List.getElem?_eq_getElem hc]
  exact existsUnique_eq'

end Cells

/-! ## Widths -/

/-- The bytes that the texts of a column have. -/
def columnBytes (rows : List (List String)) (c : Nat) : Set Nat :=
  {w | ∃ row ∈ rows, ∃ s, row[c]? = some s ∧ s.utf8ByteSize = w}

section Widths

variable {row : List String} {rows : List (List String)} {n c : Nat}

theorem columnBytes_cons (hc : c < row.length) :
    columnBytes (row :: rows) c = insert row[c].utf8ByteSize (columnBytes rows c) := by
  ext w
  simp [columnBytes, hc, eq_comm]

theorem length_columnWidths (hne : rows ≠ []) (hn : ∀ row ∈ rows, row.length = n) :
    (columnWidths rows).length = n := by
  induction rows with
  | nil => exact absurd rfl hne
  | cons row rows ih =>
    obtain ⟨hrow, hrows⟩ := List.forall_mem_cons.mp hn
    cases rows with
    | nil => simpa [columnWidths] using hrow
    | cons row' rows => simp [columnWidths, ih (List.cons_ne_nil _ _) hrows, hrow]

/-- **The width of a column** is the largest number of bytes of its texts. -/
theorem isGreatest_columnWidths (hne : rows ≠ []) (hn : ∀ row ∈ rows, row.length = n) (hc : c < n) :
    IsGreatest (columnBytes rows c) ((columnWidths rows).getD c 0) := by
  induction rows with
  | nil => exact absurd rfl hne
  | cons row rows ih =>
    obtain ⟨hrow, hrows⟩ := List.forall_mem_cons.mp hn
    have hc' : c < row.length := hc.trans_eq hrow.symm
    rw [columnBytes_cons hc']
    cases rows with
    | nil =>
      have hnone : columnBytes [] c = ∅ := by simp [columnBytes]
      have hwidth : (columnWidths [row]).getD c 0 = row[c].utf8ByteSize := by
        simp [columnWidths, hc']
      rw [hnone, hwidth, insert_empty_eq]
      exact isGreatest_singleton
    | cons row' rows =>
      have hlen := length_columnWidths (List.cons_ne_nil row' rows) hrows
      have hwidth : (columnWidths (row :: row' :: rows)).getD c 0 =
          max row[c].utf8ByteSize ((columnWidths (row' :: rows)).getD c 0) := by
        simp [columnWidths, hc', hlen, hc]
      rw [hwidth]
      exact (ih (List.cons_ne_nil _ _) hrows).insert _

end Widths

/-! ## Lines of a table -/

/-- Lines in which the columns of a table start at the same characters: each text is filled up with
blanks in front to the width of its column, which is the largest number of bytes of its texts, and
columns are two blanks apart. -/
structure Aligned (t : Table α) (cell : α → String) (lines : List String)
    (width offset : Nat → Nat) : Prop where
  /-- There is a line for the header and one for each row. -/
  length_lines : lines.length = t.nrows + 1
  /-- All lines end with the last column. -/
  length_line : ∀ l ∈ lines, l.length = offset (t.ncols + 2) + width (t.ncols + 2)
  offset_zero : offset 0 = 0
  offset_succ : ∀ c, offset (c + 1) = offset c + width c + 2
  /-- Every cell has a text. -/
  existsUnique_text : ∀ r ≤ t.nrows, ∀ c ≤ t.ncols + 2, ∃! s, t.Shows cell r c s
  width_isGreatest : ∀ c ≤ t.ncols + 2,
    IsGreatest {w | ∃ r s, t.Shows cell r c s ∧ s.utf8ByteSize = w} (width c)
  /-- No text is longer than its column. -/
  fits : ∀ r c s, t.Shows cell r c s → s.length ≤ width c
  slice : ∀ r l, lines[r]? = some l → ∀ c s, t.Shows cell r c s →
    (l.toList.drop (offset c)).take (width c) =
      List.replicate (width c - s.length) ' ' ++ s.toList
  gap : ∀ l ∈ lines, ∀ c < t.ncols + 2, (l.toList.drop (offset c + width c)).take 2 = [' ', ' ']

section Cells

variable [Zero α] {t : Table α} {cell : α → String} {c : Nat}

theorem cells_ne_nil : t.cells cell ≠ [] := List.cons_ne_nil _ _

theorem length_columnWidths_cells {row : List String} (h : row ∈ t.cells cell) :
    (columnWidths (t.cells cell)).length = row.length :=
  (length_columnWidths cells_ne_nil fun _ => length_of_mem_cells).trans (length_of_mem_cells h).symm

theorem Consistent.setOf_shows_eq (ht : t.Consistent) :
    {w | ∃ r s, t.Shows cell r c s ∧ s.utf8ByteSize = w} = columnBytes (t.cells cell) c := by
  ext w
  simp only [columnBytes, Set.mem_ofPred_eq, ht.shows_iff]
  constructor
  · rintro ⟨r, s, ⟨row, hrow, hs⟩, hw⟩
    exact ⟨row, List.mem_of_getElem? hrow, s, hs, hw⟩
  · rintro ⟨row, hrow, s, hs, hw⟩
    obtain ⟨r, hr⟩ := List.mem_iff_getElem?.mp hrow
    exact ⟨r, s, ⟨row, hr, hs⟩, hw⟩

theorem isGreatest_width (hc : c ≤ t.ncols + 2) :
    IsGreatest (columnBytes (t.cells cell) c) ((columnWidths (t.cells cell)).getD c 0) :=
  isGreatest_columnWidths cells_ne_nil (fun _ => length_of_mem_cells) (Nat.lt_succ_of_le hc)

/-- Every text fits into its column: it has at most as many characters as bytes. -/
theorem length_le_width {row : List String} (hrow : row ∈ t.cells cell) (c : Nat) (s : String)
    (hs : row[c]? = some s) : s.length ≤ (columnWidths (t.cells cell)).getD c 0 := by
  have hc : c < row.length := (List.getElem?_eq_some_iff.mp hs).1
  rw [length_of_mem_cells hrow] at hc
  exact (length_le_utf8ByteSize s).trans
    ((isGreatest_width (Nat.le_of_lt_succ hc)).2 ⟨row, hrow, s, hs, rfl⟩)

end Cells

/-- **Tables are aligned and lose nothing.** The text of a table is a line for the header and one
for each row, each with its end, and the lines have the texts of all cells in columns, whatever the
labels are and however numbers are written. -/
theorem render_aligned [Zero α] {t : Table α} (ht : t.Consistent) (cell : α → String) :
    ∃ lines width offset, t.render cell = String.join (lines.map (· ++ "\n")) ∧
      t.Aligned cell lines width offset := by
  let widths := columnWidths (t.cells cell)
  refine ⟨(t.cells cell).map (body widths), (widths.getD · 0), offset (widths.getD · 0), ?_, ?_⟩
  · rw [List.map_map]
    rfl
  refine ⟨?_, ?_, rfl, fun c => rfl, ?_, ?_, ?_, ?_, ?_⟩
  · rw [List.length_map, length_cells]
  · refine List.forall_mem_map.mpr fun row hrow => ?_
    exact length_body (length_columnWidths_cells hrow) (length_le_width hrow)
      (length_of_mem_cells hrow)
  · exact fun r hr c hc => ht.existsUnique_shows cell hr hc
  · intro c hc
    rw [ht.setOf_shows_eq]
    exact isGreatest_width hc
  · intro r c s hs
    obtain ⟨row, hrow, hs⟩ := ht.shows_iff.mp hs
    exact length_le_width (List.mem_of_getElem? hrow) c s hs
  · intro r l hl c s hs
    obtain ⟨row, hrow, hs⟩ := ht.shows_iff.mp hs
    rw [List.getElem?_map, hrow] at hl
    obtain rfl := Option.some.inj hl
    have hmem := List.mem_of_getElem? hrow
    exact slice_body (length_columnWidths_cells hmem) (length_le_width hmem) hs
  · refine List.forall_mem_map.mpr fun row hrow c hc => ?_
    refine gap_body (length_columnWidths_cells hrow) (length_le_width hrow) ?_
    rw [length_of_mem_cells hrow]
    exact Nat.succ_lt_succ hc

/-- A table with a label that has more bytes than characters. -/
def greek : Table Float where
  rowLabels := ["α≤β", "C2"]
  colLabels := ["x₁", "y"]
  coefficients := .ofValues 2 2 [1.0, -2.5, 0.0, 12.0]
  senses := [.le, .eq]
  constants := [3.0, -0.25]

theorem render_aligned_greek : greek.Consistent ∧
    ∃ lines width offset, greek.render (FixedPoint.text 1) = String.join (lines.map (· ++ "\n")) ∧
      greek.Aligned (FixedPoint.text 1) lines width offset := by
  have hgreek : greek.Consistent := ⟨rfl, rfl, rfl, rfl⟩
  exact ⟨hgreek, render_aligned hgreek (FixedPoint.text 1)⟩

-- the first label has seven bytes and three characters
example : greek.render (FixedPoint.text 1) =
    "           x₁     y  sense  constant\n" ++
    "    α≤β   1.0  -2.5     <=       3.0\n" ++
    "     C2   0.0  12.0     ==      -0.2\n" := by decide +kernel

end Table

end ConicForm
