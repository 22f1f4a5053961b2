import ArrayFusion.Eval.Session
import ArrayFusion.Proofs.Ends

/-!
# Indexing and updating

An update follows its path like an index expression does: it reads a row, goes on inside of it, and
on the way back puts the row in its place (`Value.updateAt_cons`).  Reading the row that was put in
gives that row, and every other row is read as before (`Value.row_setRow_same`,
`Value.row_setRow_of_ne`).  The laws for paths are these two laws taken from one row to a path, by
induction on the path.

An update fails just where the index expression with the same path fails, and with the same error
(`Value.updateAt_eq_error`).  What an index expression reads is `Value.atPath`
(`Program.evaluate_index`), so the laws say what index expressions see of an update
(`Value.updateAt_laws`).
-/

namespace ArrayFusion

namespace Value

variable {a b u v w : Value} {rows : List Value} {i j : Int64} {path path' : List Int64}

/-! ## One row -/

/-- The member of a list at an index, unless the index is negative or too large. -/
def rowAt? (rows : List Value) (i : Int64) : Option Value :=
  if 0 ≤ i.toInt then rows[i.toInt.toNat]? else none

/-- The row of an array is the one at the index, or the index is out of bounds. -/
theorem row_array (rows : List Value) (i : Int64) :
    (array rows).row i = (rowAt? rows i).elim (.error (.indexOutOfBounds i rows.length)) .ok := by
  have hrow : (array rows).row i = position i rows.length >>= fun slot => .ok (rows.get slot) := rfl
  rw [hrow, position, rowAt?]
  by_cases hsign : 0 ≤ i.toInt
  · by_cases hlt : i.toInt.toNat < rows.length
    · rw [dif_pos ⟨hsign, hlt⟩, if_pos hsign, List.getElem?_eq_getElem hlt]
      rfl
    · rw [dif_neg fun h => hlt h.2, if_pos hsign, List.getElem?_eq_none (by omega)]
      rfl
  · rw [dif_neg fun h => hsign h.1, if_neg hsign]
    rfl

/-- A value has a row if it is an array that has one at the index. -/
theorem row_eq_ok : a.row i = .ok w ↔ ∃ rows, a = array rows ∧ rowAt? rows i = some w := by
  cases a with
  | array rows =>
    rw [row_array]
    cases hrow : rowAt? rows i with
    | none => simp [hrow]
    | some x => simp [hrow]
  | int | real | bool | char | tuple => exact ⟨nofun, nofun⟩

/-- The array with another row at an index.  Any other value stays. -/
def setRow (i : Int64) (u : Value) : Value → Value
  | array rows => array (rows.set i.toInt.toNat u)
  | a => a

/-- Where a row was set there is the new one. -/
theorem rowAt?_set_same (h : rowAt? rows i = some w) (u : Value) :
    rowAt? (rows.set i.toInt.toNat u) i = some u := by
  unfold rowAt? at h ⊢
  by_cases hsign : 0 ≤ i.toInt
  · rw [if_pos hsign] at h ⊢
    exact List.getElem?_set_self (List.getElem?_eq_some_iff.1 h).1
  · rw [if_neg hsign] at h
    cases h

/-- At other indices there are the rows that were there. -/
theorem rowAt?_set_of_ne (h : rowAt? rows i = some w) (hij : i ≠ j) (u : Value) :
    rowAt? (rows.set i.toInt.toNat u) j = rowAt? rows j := by
  unfold rowAt? at h ⊢
  by_cases hsign : 0 ≤ j.toInt
  · rw [if_pos hsign, if_pos hsign]
    refine List.getElem?_set_ne fun heq => hij (Int64.toInt_inj.1 ?_)
    -- neither index is negative, so they are different positions
    by_cases hi : 0 ≤ i.toInt
    · omega
    · rw [if_neg hi] at h
      cases h
  · rw [if_neg hsign, if_neg hsign]

/-- The row that was set is read. -/
theorem row_setRow_same (h : a.row i = .ok w) (u : Value) : (setRow i u a).row i = .ok u := by
  obtain ⟨rows, rfl, hrow⟩ := row_eq_ok.1 h
  exact row_eq_ok.2 ⟨_, rfl, rowAt?_set_same hrow u⟩

/-- Rows at other indices are read as before. -/
theorem row_setRow_of_ne (h : a.row i = .ok w) (hij : i ≠ j) (u : Value) :
    (setRow i u a).row j = a.row j := by
  obtain ⟨rows, rfl, hrow⟩ := row_eq_ok.1 h
  rw [setRow, row_array, row_array, rowAt?_set_of_ne hrow hij, List.length_set]

/-! ## Paths -/

/-- A path leads to its first row and on from there. -/
theorem atPath_cons (a : Value) (i : Int64) (path : List Int64) :
    a.atPath (i :: path) = a.row i >>= fun w => w.atPath path := rfl

/-- An update inside a row, which is then put back. -/
theorem updateAt_cons (v a : Value) (i : Int64) (path : List Int64) :
    updateAt v a (i :: path) = do
      let w ← a.row i
      return setRow i (← updateAt v w path) a := by
  cases a with
  | array rows =>
    change (position i rows.length >>= fun slot => updateAt v (rows.get slot) path >>= fun u =>
      .ok (array (rows.set slot u))) = (position i rows.length >>= fun slot =>
          .ok (rows.get slot)) >>= fun w =>
        updateAt v w path >>= fun u => .ok (array (rows.set i.toInt.toNat u))
    unfold position
    split <;> rfl
  | int | real | bool | char | tuple => rfl

/-- An update at a path updates the first row at the rest of the path. -/
theorem updateAt_cons_eq_ok : updateAt v a (i :: path) = .ok b
    ↔ ∃ w u, a.row i = .ok w ∧ updateAt v w path = .ok u ∧ b = setRow i u a := by
  rw [updateAt_cons, Except.bind_eq_ok]
  constructor
  · rintro ⟨w, hw, h⟩
    obtain ⟨u, hu, h⟩ := Except.bind_eq_ok.1 h
    exact ⟨w, u, hw, hu, Except.pure_eq_ok.1 h⟩
  · rintro ⟨w, u, hw, hu, rfl⟩
    exact ⟨w, hw, Except.bind_eq_ok.2 ⟨u, hu, rfl⟩⟩

/-- An update fails just as indexing does. -/
theorem updateAt_eq_error {e : EvalError} :
    updateAt v a path = .error e ↔ a.atPath path = .error e := by
  induction path generalizing a with
  | nil => exact ⟨nofun, nofun⟩
  | cons i path ih =>
    -- putting the row back does not fail
    have hback : ∀ w : Value, (do return setRow i (← updateAt v w path) a) = .error e
        ↔ w.atPath path = .error e := by
      intro w
      rw [← ih, Except.bind_eq_error]
      exact or_iff_left fun ⟨u, _, hu⟩ => nomatch hu
    rw [updateAt_cons, atPath_cons, Except.bind_eq_error, Except.bind_eq_error]
    exact or_congr_right (exists_congr fun w => and_congr_right fun _ => hback w)

/-- An update succeeds just if there is something at the path. -/
theorem updateAt_ok_iff : (∃ b, updateAt v a path = .ok b) ↔ ∃ w, a.atPath path = .ok w := by
  cases hupdate : updateAt v a path with
  | error e => rw [updateAt_eq_error.1 hupdate]
  | ok b =>
    cases hread : a.atPath path with
    | error e => exact absurd (hupdate.symm.trans (updateAt_eq_error.2 hread)) nofun
    | ok w => exact ⟨fun _ => ⟨w, rfl⟩, fun _ => ⟨b, rfl⟩⟩

/-- What was put in is read at its path. -/
theorem atPath_updateAt (h : updateAt v a path = .ok b) : b.atPath path = .ok v := by
  induction path generalizing a b with
  | nil =>
    cases h
    rfl
  | cons i path ih =>
    obtain ⟨w, u, hw, hu, rfl⟩ := updateAt_cons_eq_ok.1 h
    rw [atPath_cons, row_setRow_same hw]
    exact ih hu

/-- Along a path that turns off somewhere, everything is read as before.  The induction is on where
it does. -/
theorem atPath_updateAt_of_ne (h : updateAt v a path = .ok b) {k : Nat} (hi : path[k]? = some i)
    (hj : path'[k]? = some j) (hij : i ≠ j) : b.atPath path' = a.atPath path' := by
  induction k generalizing a b path path' with
  | zero =>
    obtain ⟨rest, rfl⟩ := List.head?_eq_some_iff.1 (List.head?_eq_getElem?.trans hi)
    obtain ⟨rest', rfl⟩ := List.head?_eq_some_iff.1 (List.head?_eq_getElem?.trans hj)
    obtain ⟨w, u, hw, -, rfl⟩ := updateAt_cons_eq_ok.1 h
    rw [atPath_cons, atPath_cons, row_setRow_of_ne hw hij]
  | succ k ih =>
    obtain _ | ⟨m, path⟩ := path
    · cases hi
    obtain _ | ⟨n, path'⟩ := path'
    · cases hj
    obtain ⟨w, u, hw, hu, rfl⟩ := updateAt_cons_eq_ok.1 h
    rw [atPath_cons, atPath_cons]
    by_cases hmn : m = n
    · subst hmn
      rw [row_setRow_same hw, hw]
      exact ih hu hi hj
    · rw [row_setRow_of_ne hw hmn]

/-- The arrays along the path keep their lengths. -/
theorem length_updateAt (h : updateAt v a path = .ok b) {k : Nat} (hk : k < path.length) :
    ∃ rows rows', a.atPath (path.take k) = .ok (array rows)
      ∧ b.atPath (path.take k) = .ok (array rows')
      ∧ rows'.length = rows.length := by
  induction path generalizing a b k with
  | nil => cases hk
  | cons i path ih =>
    obtain ⟨w, u, hw, hu, rfl⟩ := updateAt_cons_eq_ok.1 h
    cases k with
    | zero =>
      obtain ⟨rows, rfl, -⟩ := row_eq_ok.1 hw
      exact ⟨rows, _, rfl, rfl, List.length_set⟩
    | succ k =>
      obtain ⟨rows, rows', hrows, hrows', hlength⟩ := ih hu (Nat.lt_of_succ_lt_succ hk)
      refine ⟨rows, rows', ?_, ?_, hlength⟩
      · rw [List.take_succ_cons, atPath_cons, hw]
        exact hrows
      · rw [List.take_succ_cons, atPath_cons, row_setRow_same hw]
        exact hrows'

end Value

/-! ## Index expressions -/

theorem Exp.evalIndex_literals {τ : Type} (call : CalleeOver τ) (env : Env) (a : Value)
    (path : List Int64) (s : Span) :
    Exp.evalIndex call env a (path.map fun i => .lit (.int i) s) = Eval.lift (a.atPath path) := by
  induction path generalizing a with
  | nil => rfl
  | cons i path ih =>
    rw [List.map_cons, Exp.evalIndex, Exp.eval, pure_bind, Value.atPath_cons]
    change (pure i >>= fun i => Eval.lift (a.row i) >>= _) = _
    rw [pure_bind]
    cases a.row i with
    | error e => rfl
    | ok w => exact ih w

/-- An index expression reads what stands at the end of its path. -/
theorem Program.evaluate_index (p : Program) (env : Env) (x : Ident) (a : Value) (path : List Int64)
    (s s' : Span) (t : Session) : p.evaluate (env.extend x.name a)
    (.index x (path.map fun i => .lit (.int i) s) s') t
      = (a.atPath path, t) := by
  have heval : (Exp.index x (path.map fun i => .lit (.int i) s) s').eval (p.answer maxDepth)
      (env.extend x.name a) = Eval.lift (a.atPath path) := by
    rw [Exp.eval, Env.get, Env.lookup?_extend, if_pos rfl]
    exact Exp.evalIndex_literals _ _ a path s
  rw [Program.evaluate, heval]
  cases a.atPath path <;> rfl

/-! ## The laws -/

/-- Index expressions and updates obey the laws of nested arrays.  An update succeeds just where the
index expression with its path does, and otherwise fails with the same error.  Afterwards the new
value is read at the path, every path that turns off from it reads what it read before, and the
arrays along the path have the lengths that they had. -/
theorem Value.updateAt_laws (a v : Value) (path : List Int64) :
    (∀ (p : Program) (env : Env) (x : Ident) (w : Value) (path : List Int64) (s s' : Span)
    (t : Session),
        p.evaluate (env.extend x.name w) (.index x (path.map fun i => .lit (.int i) s) s') t =
          (w.atPath path, t))
      ∧ ((∃ b, updateAt v a path = .ok b) ↔ ∃ w, a.atPath path = .ok w)
      ∧ (∀ e, updateAt v a path = .error e ↔ a.atPath path = .error e)
      ∧ ∀ b, updateAt v a path = .ok b → b.atPath path = .ok v
        ∧ (∀ (path' : List Int64) (k : Nat) (i j : Int64), path[k]? = some i → path'[k]? = some j →
          i ≠ j → b.atPath path' = a.atPath path')
        ∧ ∀ k < path.length, ∃ rows rows', a.atPath (path.take k) = .ok (.array rows)
          ∧ b.atPath (path.take k) = .ok (.array rows') ∧ rows'.length = rows.length := by
  refine ⟨fun p env x w path s s' t => p.evaluate_index env x w path s s' t, updateAt_ok_iff,
    fun e => updateAt_eq_error, ?_⟩
  intro b hb
  refine ⟨atPath_updateAt hb, ?_, fun k hk => length_updateAt hb hk⟩
  intro path' k i j hi hj hij
  exact atPath_updateAt_of_ne hb hi hj hij

/-- A number put into a ragged array: it is read where it was put, the row beside it and the number
behind it are as before, and so is the error behind the end of its row. -/
theorem Value.updateAt_laws_ragged :
    let a : Value := .array [.intArray [1, 2, 3], .intArray [4]]
    let b : Value := .array [.intArray [1, 9, 3], .intArray [4]]
    updateAt (.int 9) a [0, 1] = .ok b ∧ b.atPath [0, 1] = .ok (.int 9)
      ∧ b.atPath [1] = a.atPath [1]
      ∧ b.atPath [0, 2] = a.atPath [0, 2] ∧ b.atPath [0, -1] = a.atPath [0, -1]
      ∧ a.atPath [0, -1] = .error (.indexOutOfBounds (-1) 3)
      ∧ ∃ rows rows', a.atPath [0] = .ok (.array rows) ∧ b.atPath [0] = .ok (.array rows')
        ∧ rows'.length = rows.length := by
  intro a b
  have hb : updateAt (.int 9) a [0, 1] = .ok b := rfl
  obtain ⟨-, -, -, hlaws⟩ := Value.updateAt_laws a (.int 9) [0, 1]
  obtain ⟨hread, hother, hlength⟩ := hlaws b hb
  exact ⟨hb, hread, hother [1] 0 0 1 rfl rfl (by decide), hother [0, 2] 1 1 2 rfl rfl (by decide),
    hother [0, -1] 1 1 (-1) rfl rfl (by decide), rfl, hlength 1 (by decide)⟩

end ArrayFusion
