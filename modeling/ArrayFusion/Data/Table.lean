/-!
# Finite tables

A `Table` gives at most one value to each key.  It is a list of entries in which no key occurs
twice; the latest insertion stands first.  Each operation is described by what `find?` says
afterwards.
-/

namespace ArrayFusion

/-- A list of keys with their values, without a key that occurs twice. -/
structure Table (κ β : Type) where
  entries : List (κ × β)
  nodup : (entries.map (·.1)).Nodup

namespace Table

variable {κ β γ : Type}

/-- The table without entries. -/
def empty : Table κ β := ⟨[], by simp⟩

instance : Inhabited (Table κ β) := ⟨empty⟩

/-- The keys that have a value. -/
def keys (t : Table κ β) : List κ := t.entries.map (·.1)

/-- The values. -/
def values (t : Table κ β) : List β := t.entries.map (·.2)

/-- The number of entries. -/
def size (t : Table κ β) : Nat := t.entries.length

/-- Keeps the entries that pass a test. -/
def retain (p : κ → β → Bool) (t : Table κ β) : Table κ β where
  entries := t.entries.filter fun e => p e.1 e.2
  nodup := t.nodup.sublist (List.filter_sublist.map _)

/-- Changes the values. -/
def mapValues (f : β → γ) (t : Table κ β) : Table κ γ where
  entries := t.entries.map fun e => (e.1, f e.2)
  nodup := by simpa [List.map_map, Function.comp_def] using t.nodup

variable [DecidableEq κ]

/-- The value of a key. -/
def find? (t : Table κ β) (x : κ) : Option β := t.entries.lookup x

/-- Removes a key. -/
def erase (t : Table κ β) (x : κ) : Table κ β := t.retain fun y _ => y != x

/-- Gives a value to a key. -/
def insert (t : Table κ β) (x : κ) (v : β) : Table κ β where
  entries := (x, v) :: (t.erase x).entries
  nodup := by
    refine List.nodup_cons.2 ⟨?_, (t.erase x).nodup⟩
    simp [erase, retain, List.mem_filter]

/-- Adds an entry; `f` combines the value that the key has with the new one. -/
def addEntry (f : β → β → β) (e : κ × β) (t : Table κ β) : Table κ β :=
  t.insert e.1 (match t.find? e.1 with
    | some v => f v e.2
    | none => e.2)

/-- Adds the entries of another table; `f` combines two values of one key, the value of the first
table in front. -/
def unionWith (f : β → β → β) (t u : Table κ β) : Table κ β := u.entries.foldr (addEntry f) t

/-- Adds the entries of another table, whose values prevail. -/
def union (t u : Table κ β) : Table κ β := t.unionWith (fun _ v => v) u

@[simp] theorem find?_empty (x : κ) : (empty : Table κ β).find? x = none := rfl

theorem find?_eq_some_iff {t : Table κ β} {x : κ} {v : β} :
    t.find? x = some v ↔ (x, v) ∈ t.entries := by
  obtain ⟨es, hes⟩ := t
  simp only [find?]
  induction es with
  | nil => simp
  | cons e es ih =>
    obtain ⟨y, w⟩ := e
    simp only [List.map_cons, List.nodup_cons] at hes
    by_cases h : x = y
    · subst h
      have hnot : ∀ u, (x, u) ∉ es := fun u hu => hes.1 (List.mem_map.2 ⟨_, hu, rfl⟩)
      simp [hnot, eq_comm]
    · simp [List.lookup_cons, beq_eq_false_iff_ne.2 h, h, ih hes.2]

theorem find?_eq_none_iff {t : Table κ β} {x : κ} : t.find? x = none ↔ x ∉ t.keys := by
  constructor
  · intro h hx
    obtain ⟨⟨y, v⟩, hv, rfl⟩ := List.mem_map.1 hx
    exact absurd (find?_eq_some_iff.2 hv) (by simp [h])
  · intro h
    cases hv : t.find? x with
    | none => rfl
    | some v => exact absurd (List.mem_map.2 ⟨_, find?_eq_some_iff.1 hv, rfl⟩) h

theorem mem_keys_iff {t : Table κ β} {x : κ} : x ∈ t.keys ↔ ∃ v, t.find? x = some v := by
  cases h : t.find? x with
  | none => simp [find?_eq_none_iff.1 h]
  | some v => exact ⟨fun _ => ⟨v, rfl⟩, fun _ => List.mem_map.2 ⟨_, find?_eq_some_iff.1 h, rfl⟩⟩

theorem find?_retain (p : κ → β → Bool) (t : Table κ β) (x : κ) :
    (t.retain p).find? x = (t.find? x).filter (p x) := by
  ext v
  simp only [find?_eq_some_iff, retain, List.mem_filter, Option.filter_eq_some_iff]

theorem find?_mapValues (f : β → γ) (t : Table κ β) (x : κ) :
    (t.mapValues f).find? x = (t.find? x).map f := by
  ext v
  simp only [find?_eq_some_iff, mapValues, List.mem_map, Option.map_eq_some_iff, Prod.exists,
    Prod.mk.injEq]
  exact ⟨fun ⟨_, w, hw, hx, hv⟩ => ⟨w, hx ▸ hw, hv⟩, fun ⟨w, hw, hv⟩ => ⟨x, w, hw, rfl, hv⟩⟩

theorem find?_erase (t : Table κ β) (x y : κ) :
    (t.erase x).find? y = if y = x then none else t.find? y := by
  rw [erase, find?_retain]
  by_cases h : y = x
  · cases t.find? y <;> simp [h, Option.filter]
  · cases t.find? y <;> simp [h, Option.filter]

theorem find?_insert (t : Table κ β) (x y : κ) (v : β) :
    (t.insert x v).find? y = if y = x then some v else t.find? y := by
  by_cases h : y = x
  · simp [h, find?, insert]
  · have : (t.insert x v).find? y = (t.erase x).find? y := by
      simp [find?, insert, List.lookup_cons, beq_eq_false_iff_ne.2 h]
    rw [this, find?_erase, if_neg h, if_neg h]

theorem find?_addEntry (f : β → β → β) (e : κ × β) (t : Table κ β) (x : κ) :
    (t.addEntry f e).find? x =
      if x = e.1 then some (match t.find? x with
        | some v => f v e.2
        | none => e.2)
      else t.find? x := by
  rw [addEntry, find?_insert]
  by_cases h : x = e.1
  · subst h; rfl
  · simp [h]

theorem find?_unionWith (f : β → β → β) (t u : Table κ β) (x : κ) :
    (t.unionWith f u).find? x =
      match t.find? x, u.find? x with
      | some v, some w => some (f v w)
      | some v, none => some v
      | none, w => w := by
  obtain ⟨es, hes⟩ := u
  change (es.foldr (addEntry f) t).find? x = match t.find? x, es.lookup x with
    | some v, some w => some (f v w)
    | some v, none => some v
    | none, w => w
  induction es with
  | nil => cases h : t.find? x <;> simp [h]
  | cons e es ih =>
    obtain ⟨y, w⟩ := e
    simp only [List.map_cons, List.nodup_cons] at hes
    rw [List.foldr_cons, find?_addEntry, ih hes.2]
    by_cases h : x = y
    · subst h
      have hnone : es.lookup x = none := by
        refine List.lookup_eq_none_iff.2 fun e he => ?_
        simpa using fun hx : x = e.1 => hes.1 (List.mem_map.2 ⟨e, he, hx.symm⟩)
      cases t.find? x <;> simp [hnone]
    · simp [List.lookup_cons, beq_eq_false_iff_ne.2 h, h]

theorem find?_union (t u : Table κ β) (x : κ) :
    (t.union u).find? x = (u.find? x).or (t.find? x) := by
  rw [union, find?_unionWith]
  cases t.find? x <;> cases u.find? x <;> rfl

end Table

end ArrayFusion
