import Mathlib.Data.Finset.Card
import ArrayFusion.Syntax.Symbol

/-!
# Interning strings at the same time

A call may look a string up, and others may intern the same string before the call does.  It does
not get a second symbol: interning looks the string up again.  So every step of every call keeps the
table such that its two parts agree (`SymbolTable.Indexed`), and whatever symbol a call returned is
the one that the table has for its string (`SharedTable.Sound.step`).  By induction over the
schedule, this holds after any number of steps in any order (`SharedTable.sound_run`).

Symbols never change hands, so equal strings have equal symbols.  As long as there are no more
strings than symbols, the symbol of a string leads back to the string, and different strings have
different symbols (`SharedTable.symbols_exact`).
-/

namespace ArrayFusion

/-- A number of less than 32 bits is the index of the symbol it makes. -/
theorem Symbol.toNat_index_ofNumber {n : Nat} (h : n < UInt32.size) :
    (Symbol.ofNumber n).index.toNat = n :=
  UInt32.toNat_ofNatClamp_of_lt h

namespace SymbolTable

variable {t : SymbolTable} {s u : String} {x : Symbol}

/-! ## One table -/

/-- No string is in the table twice, and the symbol of a string is the number of its place. -/
structure Indexed (t : SymbolTable) : Prop where
  nodup : t.strings.Nodup
  find? : ∀ s x, t.find? s = some x ↔ ∃ n, t.strings[n]? = some s ∧ x = .ofNumber n

/-- The empty table is indexed. -/
theorem indexed_empty : empty.Indexed :=
    ⟨List.nodup_nil, fun s x => by simp [empty, SymbolTable.find?]⟩

/-- A string is not found if it is not among those of the table. -/
theorem Indexed.find?_eq_none (h : t.Indexed) : t.find? s = none ↔ s ∉ t.strings := by
  rw [List.mem_iff_getElem?, not_exists, Option.eq_none_iff_forall_ne_some]
  exact ⟨fun hnone n hn => hnone _ ((h.find? s _).2 ⟨n, hn, rfl⟩), fun hnot x hx =>
    have ⟨n, hn, _⟩ := (h.find? s x).1 hx
    hnot n hn⟩

/-- A string that is interned has the symbol that was returned, and all others have what they
had. -/
theorem find?_intern (t : SymbolTable) (s u : String) :
    (t.intern s).2.find? u = if u = s then some (t.intern s).1 else t.find? u := by
  unfold intern
  cases hs : t.find? s with
  | none => exact t.ids.find?_insert s u _
  | some x =>
    by_cases hu : u = s
    · rw [if_pos hu, hu]
      exact hs
    · rw [if_neg hu]

/-- Interning adds no other string. -/
theorem mem_strings_intern (h : u ∈ (t.intern s).2.strings) : u ∈ t.strings ∨ u = s := by
  unfold intern at h
  cases hs : t.find? s with
  | none =>
    rw [hs] at h
    simpa using h
  | some x =>
    rw [hs] at h
    exact .inl h

/-- The entries of a longer list are those it had and the new one at its end. -/
theorem getElem?_concat_eq_some {α : Type} {l : List α} {a b : α} {n : Nat} :
    (l ++ [a])[n]? = some b ↔ l[n]? = some b ∨ n = l.length ∧ a = b := by
  rcases Nat.lt_trichotomy n l.length with hn | rfl | hn
  · rw [List.getElem?_append_left hn, or_iff_left fun h => Nat.ne_of_lt hn h.1]
  · rw [List.getElem?_concat_length, List.getElem?_eq_none (Nat.le_refl _)]
    simp
  · have hout : (l ++ [a]).length ≤ n := by rw [List.length_append]; exact hn
    rw [List.getElem?_eq_none hout, List.getElem?_eq_none (Nat.le_of_lt hn)]
    simp [Nat.ne_of_gt hn]

/-- A string is put where its symbol says, at the end of a table that does not have it. -/
theorem Indexed.intern (h : t.Indexed) (s : String) : (t.intern s).2.Indexed := by
  unfold SymbolTable.intern
  cases hs : t.find? s with
  | some x => exact h
  | none =>
    have hnot : s ∉ t.strings := h.find?_eq_none.1 hs
    refine ⟨List.concat_eq_append ▸ h.nodup.concat hnot, fun u x => ?_⟩
    change (t.ids.insert s (.ofNumber t.strings.length)).find? u = _ ↔ ∃ n,
      (t.strings ++ [s])[n]? = _ ∧ _
    simp only [Table.find?_insert, getElem?_concat_eq_some]
    by_cases hu : u = s
    · subst hu
      have hnowhere : ∀ n, t.strings[n]? ≠ some u := fun n hn => hnot (List.mem_of_getElem? hn)
      simp [hnowhere, eq_comm]
    · rw [if_neg hu, show t.ids.find? u = some x ↔ _ from h.find? u x]
      simp [Ne.symm hu]

/-- The symbol of a string leads back to it, if there are no more strings than symbols. -/
theorem Indexed.text (h : t.Indexed) (hlen : t.strings.length ≤ UInt32.size)
    (hs : t.find? s = some x) : t.text x = s := by
  obtain ⟨n, hn, rfl⟩ := (h.find? s x).1 hs
  have hlt : n < UInt32.size := Nat.lt_of_lt_of_le (List.getElem?_eq_some_iff.1 hn).1 hlen
  rw [SymbolTable.text, text?, Symbol.toNat_index_ofNumber hlt, hn]
  rfl

/-! ## One step of a call -/

variable {p : Interning}

/-- Looking a string up leaves the table as it is. -/
theorem fst_advance_waiting (t : SymbolTable) (s : String) : (t.advance s .waiting).1 = t := by
  rw [advance]
  split <;> rfl

/-- A table stays indexed when a call goes on. -/
theorem Indexed.advance (h : t.Indexed) : (t.advance s p).1.Indexed := by
  cases p with
  | waiting => rwa [fst_advance_waiting]
  | missed => exact h.intern s
  | returned x => exact h

/-- A step gives no string another symbol. -/
theorem find?_advance (h : t.find? u = some x) : (t.advance s p).1.find? u = some x := by
  cases p with
  | waiting => rwa [fst_advance_waiting]
  | missed =>
    change (t.intern s).2.find? u = some x
    rw [find?_intern]
    split
    · next hu =>
      subst hu
      rw [intern, h]
    · exact h
  | returned y => exact h

/-- A call that returns a symbol has that of its string, if it had it before. -/
theorem find?_of_advance (hp : ∀ y, p = .returned y → t.find? s = some y)
    (h : (t.advance s p).2 = .returned x) : (t.advance s p).1.find? s = some x := by
  cases p with
  | waiting =>
    rw [fst_advance_waiting]
    cases hs : t.find? s with
    | none => simp [advance, hs] at h
    | some y => simpa [advance, hs] using h
  | missed =>
    -- That the string was not there before says nothing about this table: another call may have been faster.
    cases h
    exact (t.find?_intern s s).trans (if_pos rfl)
  | returned y =>
    cases h
    exact hp x rfl

/-- A call adds no other string than its own. -/
theorem mem_strings_advance (h : u ∈ (t.advance s p).1.strings) : u ∈ t.strings ∨ u = s := by
  cases p with
  | waiting => exact .inl (t.fst_advance_waiting s ▸ h)
  | missed => exact mem_strings_intern h
  | returned x => exact .inl h

end SymbolTable

/-- The number of steps that a call made, as far as they matter. -/
def Interning.steps : Interning → Nat
  | .waiting => 0
  | .missed => 1
  | .returned _ => 2

/-- A call takes at most two steps. -/
theorem SymbolTable.steps_advance (t : SymbolTable) (s : String) (p : Interning) :
    min 2 (p.steps + 1) ≤ (t.advance s p).2.steps := by
  cases p with
  | waiting => rw [advance]; split <;> simp [Interning.steps]
  | missed => exact Nat.le_refl _
  | returned x => exact Nat.le_refl _

/-! ## Many calls -/

namespace SharedTable

variable {ι : Type} [DecidableEq ι] {strings : ι → String} {σ : SharedTable ι} {called : List ι}
    {c d : ι} {x y : Symbol}

/-- A step of a caller advances its call. -/
theorem calls_step_self : (σ.step strings c).calls c =
    (σ.table.advance (strings c) (σ.calls c)).2 := if_pos rfl

/-- A step of a caller leaves the other calls as they are. -/
theorem calls_step_ne (h : d ≠ c) : (σ.step strings c).calls d = σ.calls d := if_neg h

/-- A longer schedule makes one more step. -/
theorem run_concat (strings : ι → String) (schedule : List ι) (c : ι) :
    run strings (schedule ++ [c]) = (run strings schedule).step strings c :=
  List.foldl_concat ..

/-- The table is indexed, its strings are those of some of the calls, and it has the symbols that
were returned. -/
structure Sound (strings : ι → String) (called : List ι) (σ : SharedTable ι) : Prop where
  indexed : σ.table.Indexed
  called : ∀ s ∈ σ.table.strings, s ∈ called.map strings
  returned : ∀ c x, σ.calls c = .returned x → σ.table.find? (strings c) = some x

/-- A step keeps the table sound, whichever call makes it. -/
theorem Sound.step (h : Sound strings called σ) (c : ι) :
    Sound strings (called ++ [c]) (σ.step strings c) where
  indexed := h.indexed.advance
  called := fun s hs => by
    rw [List.map_append, List.mem_append]
    exact (SymbolTable.mem_strings_advance hs).imp (h.called s) fun heq => List.mem_singleton.2 heq
  returned := fun d x hd => by
    by_cases hdc : d = c
    · subst hdc
      rw [calls_step_self] at hd
      exact SymbolTable.find?_of_advance (fun y => h.returned d y) hd
    · -- What another call returned stays valid, as no string gets a second symbol.
      rw [calls_step_ne hdc] at hd
      exact SymbolTable.find?_advance (h.returned d x hd)

/-- Every run is sound. -/
theorem sound_run (strings : ι → String) (schedule : List ι) :
    Sound strings schedule (run strings schedule) := by
  induction schedule using List.reverseRecOn with
  | nil => exact ⟨SymbolTable.indexed_empty, nofun, nofun⟩
  | append_singleton schedule c ih => exact run_concat strings schedule c ▸ ih.step c

omit [DecidableEq ι] in
/-- There are no more strings in the table than there are among those of the calls. -/
theorem Sound.length_le (h : Sound strings called σ) :
    σ.table.strings.length ≤ (called.map strings).toFinset.card := by
  rw [← List.toFinset_card_of_nodup h.indexed.nodup]
  exact Finset.card_le_card fun s hs => List.mem_toFinset.2 (h.called s (List.mem_toFinset.1 hs))

/-- A call that returned makes no further steps. -/
theorem calls_run_append (schedule later : List ι)
    (h : (run strings schedule).calls c = .returned x) :
    (run strings (schedule ++ later)).calls c = .returned x := by
  induction later using List.reverseRecOn with
  | nil => rwa [List.append_nil]
  | append_singleton later d ih =>
    rw [← List.append_assoc, run_concat]
    by_cases hcd : c = d
    · rw [← hcd, calls_step_self, ih]
      rfl
    · rwa [calls_step_ne hcd]

/-- A call makes one of its steps whenever it is its turn. -/
theorem count_le_steps (strings : ι → String) (schedule : List ι) (c : ι) :
    min 2 (schedule.count c) ≤ ((run strings schedule).calls c).steps := by
  induction schedule using List.reverseRecOn with
  | nil => exact Nat.le_refl _
  | append_singleton schedule d ih =>
    rw [run_concat, List.count_append, List.count_singleton]
    by_cases hcd : d = c
    · subst hcd
      have hstep := (run strings schedule).table.steps_advance (strings d)
        ((run strings schedule).calls d)
      rw [calls_step_self, beq_self_eq_true, if_pos rfl]
      omega
    · rw [calls_step_ne (Ne.symm hcd), beq_eq_false_iff_ne.2 hcd, if_neg Bool.false_ne_true]
      exact ih

/-- Calls that share a table from the start, in whatever order they make their steps, return the
same symbol if and only if they intern the same string, and each symbol that was returned leads back
to the string of its call ever after, as long as the calls intern no more strings than there are
symbols.  Every call returns in two steps. -/
theorem symbols_exact (strings : ι → String) (schedule later : List ι)
    (h : ((schedule ++ later).map strings).toFinset.card ≤ UInt32.size) :
    (∀ c d x y, (run strings schedule).calls c = .returned x → (run strings schedule).calls d =
    .returned y → (x = y ↔ strings c = strings d))
      ∧ (∀ c x, (run strings schedule).calls c = .returned x →
        (run strings (schedule ++ later)).calls c = .returned x
          ∧ (run strings (schedule ++ later)).table.text x = strings c)
      ∧ ∀ c, 2 ≤ schedule.count c → ∃ x, (run strings schedule).calls c = .returned x := by
  have hsound := sound_run strings (schedule ++ later)
  have hlater : ∀ c x, (run strings schedule).calls c = .returned x →
      (run strings (schedule ++ later)).table.find? (strings c) = some x :=
    fun c x hc => hsound.returned c x (calls_run_append schedule later hc)
  have htext : ∀ c x, (run strings schedule).calls c = .returned x →
      (run strings (schedule ++ later)).table.text x = strings c :=
    fun c x hc => hsound.indexed.text (hsound.length_le.trans h) (hlater c x hc)
  -- Everything is read off the last table, which has the symbols of all calls that returned.
  refine ⟨fun c d x y hc hd => ⟨?_, fun heq => ?_⟩,
    fun c x hc => ⟨calls_run_append schedule later hc, htext c x hc⟩, fun c hc => ?_⟩
  · rintro rfl
    exact (htext c x hc).symm.trans (htext d x hd)
  · -- equal symbols name one entry of the last table
    have hx := hlater c x hc
    rw [heq, hlater d y hd] at hx
    exact (Option.some.inj hx).symm
  · -- two steps are enough for a call, whatever the others do in between
    have hsteps := count_le_steps strings schedule c
    rw [Nat.min_eq_left hc] at hsteps
    cases hcall : (run strings schedule).calls c with
    | waiting | missed =>
      rw [hcall] at hsteps
      exact absurd hsteps (by decide)
    | returned x => exact ⟨x, rfl⟩

/-- Two calls for the same string, and two for others. -/
def fourCalls (c : Fin 4) : String := ["xs", "xs", "ys", "zs"].get c

/-- Both calls for the same string look it up before either of them interns it, and one call is
late. -/
theorem symbols_exact_fourCalls :
    (([0, 1, 2, 1, 2, 0] ++ [3, 3] : List (Fin 4)).map fourCalls).toFinset.card ≤ UInt32.size
      ∧ (run fourCalls [0, 1]).calls 0 = .missed ∧ (run fourCalls [0, 1]).calls 1 = .missed
      ∧ ∃ x y z : Symbol, (run fourCalls [0, 1, 2, 1, 2, 0]).calls 0 = .returned x
        ∧ (run fourCalls [0, 1, 2, 1, 2, 0]).calls 1 = .returned y
        ∧ (run fourCalls [0, 1, 2, 1, 2, 0]).calls 2 = .returned z
        ∧ x = y ∧ x ≠ z ∧ (run fourCalls [0, 1, 2, 1, 2, 0, 3, 3]).table.text z = "ys" := by
  have hcard : (([0, 1, 2, 1, 2, 0] ++ [3, 3] : List (Fin 4)).map fourCalls).toFinset.card ≤
      UInt32.size := by
    decide +kernel
  obtain ⟨hsame, htext, hreturned⟩ := symbols_exact fourCalls [0, 1, 2, 1, 2, 0] [3, 3] hcard
  obtain ⟨x, hx⟩ := hreturned 0 (by decide)
  obtain ⟨y, hy⟩ := hreturned 1 (by decide)
  obtain ⟨z, hz⟩ := hreturned 2 (by decide)
  have hdifferent : x ≠ z := fun heq => absurd ((hsame 0 2 x z hx hz).1 heq) (by decide)
  exact ⟨hcard, by decide +kernel, by decide +kernel, x, y, z, hx, hy, hz, (hsame 0 1 x y hx hy).2 rfl, hdifferent,
    (htext 2 z hz).2⟩

end SharedTable

end ArrayFusion
