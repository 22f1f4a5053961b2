import ArrayFusion.Eval.Session
import ArrayFusion.Proofs.Ends
import ArrayFusion.Proofs.Rows

/-!
# Tables and their transposition

A table is an array of rows of one length, given by what stands at each pair of positions.  Whatever
can be transposed is a table, and its transposition exchanges the two positions
(`Value.exists_table_of_transpose`, `Value.transpose_table`).  Only the number of columns needs
care: a table without rows is the empty array whatever its width is, and its transposition has no
rows either.

Hence an array can be transposed if and only if its rows are arrays of one length, and the
transposition of a transposition is the array itself, unless it has no rows or no columns
(`Value.transpose_exact`).
-/

namespace ArrayFusion

namespace Value

theorem mapM_toArray {vs : List Value} {rows : List (List Value)} :
    vs.mapM toArray = .ok rows ↔ vs = rows.map array := by
  rw [Except.mapM_eq_ok]
  simp only [toArray_eq_ok]
  rw [← List.forall₂_eq_eq_eq, List.forall₂_map_right_iff]

theorem transpose_array (rows : List (List Value)) : (Value.array (rows.map array)).transpose
    = if rows.all (·.length == (rows.headD []).length) then
        .ok (.array ((columns (rows.headD []).length rows).map array))
      else .error (.shapeMismatch .ragged) := by
  change (rows.map array).mapM toArray >>= _ = _
  rw [mapM_toArray.2 rfl]
  rfl

/-- An array of rows of one length. -/
def table (height width : Nat) (cell : Nat → Nat → Value) : Value :=
  .array ((List.range height).map fun i => .array ((List.range width).map (cell i)))

/-- The transposition of a table has at two positions what the table has at the exchanged ones. -/
theorem transpose_table {height width : Nat} (hempty : height = 0 → width = 0)
    (cell : Nat → Nat → Value) :
    (table height width cell).transpose = .ok (table width height fun j i => cell i j) := by
  let rows := (List.range height).map fun i => (List.range width).map (cell i)
  have htable : table height width cell = .array (rows.map array) := by
    rw [table, List.map_map]
    rfl
  have hwidth : (rows.headD []).length = width := by
    cases height with
    | zero => exact (hempty rfl).symm
    | succ height => simp [rows, List.range_succ_eq_map]
  have hall : rows.all (·.length == width) = true := by simp [rows]
  have hcolumns : columns width rows = (List.range width).map fun j =>
      (List.range height).map (cell · j) := by
    have h := columns_map (fun j i => cell i j) (List.range width) (List.range height)
    rwa [List.length_range] at h
  rw [htable, transpose_array, hwidth, if_pos hall, hcolumns, List.map_map]
  rfl

/-- Rows of one length are a table. -/
theorem array_eq_table {rows : List (List Value)} {width : Nat}
    (h : ∀ row ∈ rows, row.length = width) :
    array (rows.map array) = table rows.length width fun i j => (rows[i]!)[j]! := by
  rw [table]
  conv_lhs => rw [List.eq_map_range rows, List.map_map]
  refine congrArg array (List.map_congr_left fun i hi => congrArg array ?_)
  have hmem : rows[i]! ∈ rows := by
    rw [getElem!_pos rows i (List.mem_range.1 hi)]
    exact List.getElem_mem _
  rw [← h _ hmem]
  exact List.eq_map_range _

/-- What can be transposed is an array of rows of one length. -/
theorem exists_rows_of_transpose {u v : Value} (h : v.transpose = .ok u) :
    ∃ rows : List (List Value),
    v = array (rows.map array) ∧ ∀ row ∈ rows, row.length = (rows.headD []).length := by
  obtain ⟨vs, hvs, hrest⟩ := Except.bind_eq_ok.1 h
  obtain ⟨rows, hrows, -⟩ := Except.bind_eq_ok.1 hrest
  obtain rfl := toArray_eq_ok.1 hvs
  obtain rfl := mapM_toArray.1 hrows
  refine ⟨rows, rfl, ?_⟩
  have hall : rows.all (·.length == (rows.headD []).length) = true := by
    by_contra hragged
    rw [transpose_array, if_neg hragged] at h
    cases h
  intro row hrow
  exact beq_iff_eq.1 (List.all_eq_true.1 hall row hrow)

/-- What can be transposed is a table. -/
theorem exists_table_of_transpose {u v : Value} (h : v.transpose = .ok u) :
    ∃ height width cell, (height = 0 → width = 0) ∧ v = table height width cell := by
  obtain ⟨rows, rfl, hlength⟩ := exists_rows_of_transpose h
  refine ⟨rows.length, (rows.headD []).length, _, fun hempty => ?_, array_eq_table hlength⟩
  rw [List.length_eq_zero_iff.1 hempty]
  rfl

/-! ## What a transposition says -/

/-- The transposition of rows of one length, by its columns: their number and their lengths, and
what stands in them. -/
theorem exists_columns_of_transpose {rows : List (List Value)} {width : Nat}
    (h : ∀ row ∈ rows, row.length = width) (hempty : rows = [] → width = 0) :
    ∃ cols : List (List Value),
      (array (rows.map array)).transpose = .ok (array (cols.map array)) ∧ cols.length = width
        ∧ (∀ col ∈ cols, col.length = rows.length)
          ∧ ∀ i j : Nat, cols[i]?.bind (·[j]?) = rows[j]?.bind (·[i]?) := by
  refine ⟨(List.range width).map fun i => (List.range rows.length).map fun j =>
    (rows[j]!)[i]!, ?_, ?_, ?_, ?_⟩
  · rw [array_eq_table h, transpose_table (fun hlength =>
      hempty (List.length_eq_zero_iff.1 hlength)), table,
      List.map_map]
    rfl
  · rw [List.length_map, List.length_range]
  · rw [List.forall_mem_map]
    intro i _
    rw [List.length_map, List.length_range]
  · intro i j
    by_cases hj : j < rows.length
    · have hrow : rows[j].length = width := h _ (List.getElem_mem hj)
      -- inside the table both sides are the entry at that place
      by_cases hi : i < width
      · have hcell : i < rows[j].length := by omega
        simp [hi, hj, hcell]
      · have hcell : rows[j].length ≤ i := by omega
        simp [hi, hj, hcell]
    · -- no row has that position, and no column is so long
      by_cases hi : i < width <;> simp [hi, hj]

/-- If there is a row and a column, two transpositions give the array back. -/
theorem transpose_transpose {rows : List (List Value)} {width : Nat}
    (h : ∀ row ∈ rows, row.length = width) (hrows : 1 ≤ rows.length) (hwidth : 1 ≤ width) :
    (array (rows.map array)).transpose >>= transpose = .ok (array (rows.map array)) := by
  rw [array_eq_table h, transpose_table (by omega)]
  exact transpose_table (by omega) _

end Value

theorem Program.evaluate_transpose (p : Program) {env : Env} {e : Exp} {t t' : Session} {v : Value}
    (h : p.evaluate env e t = (.ok v, t')) (s : Span) :
    p.evaluate env (.unary .transpose e s) t = (v.transpose, t') := by
  change StateT.run (ExceptT.bindCont (fun v => Eval.lift v.transpose) (p.evaluate env e t).1)
    (p.evaluate env e t).2 = _
  rw [h]
  change (Eval.lift v.transpose).run.run t' = _
  cases v.transpose <;> rfl

/-- A value can be transposed if and only if it is an array whose rows are arrays of one length.  If
there are `rows.length` of them of length `width`, the transposition has `width` rows of length
`rows.length`, with the two positions of each member exchanged; and unless one of the numbers is 0,
transposing it gives the value back. -/
theorem Value.transpose_exact (v : Value) :
    (∀ (p : Program) (env : Env) (e : Exp) (s : Span) (t t' : Session), p.evaluate env e t =
    (.ok v, t') → p.evaluate env (.unary .transpose e s) t = (v.transpose, t'))
      ∧ ((∃ u, v.transpose = .ok u)
        ↔ ∃ rows : List (List Value), v = .array (rows.map .array) ∧ ∃ width, ∀ row ∈ rows,
          row.length = width)
      ∧ ∀ (rows : List (List Value)) (width : Nat), v = .array (rows.map .array) →
        (∀ row ∈ rows, row.length = width) → (rows = [] → width = 0) →
        (∃ cols : List (List Value), v.transpose = .ok (.array (cols.map .array))
    ∧ cols.length = width
          ∧ (∀ col ∈ cols, col.length = rows.length)
        ∧ ∀ i j : Nat, cols[i]?.bind (·[j]?) = rows[j]?.bind (·[i]?))
        ∧ (1 ≤ rows.length → 1 ≤ width → v.transpose >>= transpose = .ok v) := by
  refine ⟨fun p env e s t t' h => p.evaluate_transpose h s, ?_, ?_⟩
  · constructor
    · -- only a list of rows of one length has a transpose
      rintro ⟨u, hu⟩
      obtain ⟨rows, hv, hlength⟩ := exists_rows_of_transpose hu
      exact ⟨rows, hv, _, hlength⟩
    · rintro ⟨rows, rfl, width, hlength⟩
      -- without rows the common length may be any number
      by_cases hrows : rows = []
      · subst hrows
        exact ⟨_, transpose_array []⟩
      · obtain ⟨cols, hcols, -⟩ := exists_columns_of_transpose hlength fun hnil => absurd hnil hrows
        exact ⟨_, hcols⟩
  · rintro rows width rfl hlength hempty
    exact ⟨exists_columns_of_transpose hlength hempty, transpose_transpose hlength⟩

/-- Two rows of three numbers, as a program transposes them. -/
theorem Value.transpose_exact_twoRows :
    let rows : List (List Value) := [[.int 1, .int 2, .int 3], [.int 4, .int 5, .int 6]]
    let v : Value := .array (rows.map .array)
    let m : Ident := ⟨⟨"m", 0⟩, .array (.array .int)⟩
    let env := Env.empty.extend m.name v
    (∀ row ∈ rows, row.length = 3)
      ∧ Program.evaluate ⟨[]⟩ env (.unary .transpose (.ofIdent m) .dummy) .new = (v.transpose, .new)
      ∧ (∃ cols : List (List Value), v.transpose = .ok (.array (cols.map .array)) ∧ cols.length = 3
        ∧ ∀ i j : Nat, cols[i]?.bind (·[j]?) = rows[j]?.bind (·[i]?))
      ∧ v.transpose >>= transpose = .ok v := by
  intro rows v m env
  have hlength : ∀ row ∈ rows, row.length = 3 := by simp [rows]
  obtain ⟨heval, -, hrows⟩ := Value.transpose_exact v
  obtain ⟨⟨cols, hcols, hwidth, -, hcells⟩, htwice⟩ := hrows rows 3 rfl hlength nofun
  exact ⟨hlength, heval ⟨[]⟩ env (.ofIdent m) .dummy .new .new rfl, ⟨cols, hcols, hwidth, hcells⟩,
    htwice (by decide) (by decide)⟩

end ArrayFusion
