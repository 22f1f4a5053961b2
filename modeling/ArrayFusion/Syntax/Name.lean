/-!
# Names

A name is a base, chosen by whoever wrote the program, and a tag of 32 bits that tells names with
the same base apart.  A `NameSupply` counts the names that it hands out, and the tag of each is the
count in 32 bits.  As long as the count stays in range, a name that is handed out differs from every
name whose tag is smaller than the count.  Behind that the tags begin again with 0.
-/

namespace ArrayFusion

/-- A variable name: two names are the same when both the base and the tag are. -/
structure Name where
  base : String
  tag : Nat
deriving DecidableEq, Inhabited

namespace Name

/-- Tags are numbers of 32 bits; this is the largest. -/
def maxTag : Nat := UInt32.size - 1

/-- A name is written `base_tag`. -/
def text (x : Name) : String := s!"{x.base}_{x.tag}"

end Name

/-- A supply of fresh names.  The count has no end, but only its last 32 bits can be seen from
outside. -/
structure NameSupply where
  count : Nat
deriving DecidableEq, Inhabited

namespace NameSupply

/-- The supply that starts with tag 1. -/
def initial : NameSupply := ⟨1⟩

/-- The supply whose tags are larger than `tag`, as long as there are such tags. -/
def above (tag : Nat) : NameSupply := ⟨min (tag + 1) Name.maxTag⟩

/-- The tag of the name that is handed out next. -/
def next (s : NameSupply) : Nat := s.count % UInt32.size

/-- A fresh name with the given base, and the supply without it. -/
def fresh (s : NameSupply) (base : String) : Name × NameSupply := (⟨base, s.next⟩, ⟨s.count + 1⟩)

/-- A fresh name with the base of `x`. -/
def freshLike (s : NameSupply) (x : Name) : Name × NameSupply := s.fresh x.base

/-- No tag was handed out behind the last one: the tags so far were the counts themselves. -/
def InRange (s : NameSupply) : Prop := s.count ≤ UInt32.size

instance (s : NameSupply) : Decidable s.InRange := inferInstanceAs (Decidable (_ ≤ _))

/-- What is seen of a supply is a counter of 32 bits, which starts again with 0 behind the largest
number. -/
theorem next_fresh (s : NameSupply) (base : String) :
    (s.fresh base).2.next = (s.next + 1) % UInt32.size :=
  (Nat.mod_add_mod _ _ _).symm

/-- A tag is never larger than the count. -/
theorem next_le (s : NameSupply) : s.next ≤ s.count := Nat.mod_le _ _

/-- A supply was in range before if it still is. -/
theorem InRange.of_le {s s' : NameSupply} (h : s'.InRange) (hle : s.count ≤ s'.count) : s.InRange :=
  Nat.le_trans hle h

/-- If names were taken on the way to the second supply, then there were tags for them. -/
def Serves (s s' : NameSupply) : Prop := s.count < s'.count → s'.InRange

theorem InRange.serves {s' : NameSupply} (h : s'.InRange) (s : NameSupply) :
    s.Serves s' := fun _ => h

/-- There were tags for those names too that were taken last. -/
theorem Serves.behind {s s₁ s' : NameSupply} (h : s.Serves s') (hle : s.count ≤ s₁.count) :
    s₁.Serves s' :=
  fun hlt => h (Nat.lt_of_le_of_lt hle hlt)

/-- The next tag is the count if there is a tag for the name. -/
theorem Serves.next_eq {s s' : NameSupply} (h : s.Serves s') (hlt : s.count < s'.count) :
    s.next = s.count :=
  Nat.mod_eq_of_lt (Nat.lt_of_lt_of_le hlt (h hlt))

theorem InRange.next_eq {s s' : NameSupply} (h : s'.InRange) (hlt : s.count < s'.count) :
    s.next = s.count :=
  (h.serves s).next_eq hlt

end NameSupply

end ArrayFusion
