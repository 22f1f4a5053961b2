import ArrayFusion.Json.Number

/-!
# Tokens of JSON texts

`tokenize` cuts a text into tokens and drops the blanks between them.  A step looks only at the
characters that are left and always consumes one (`step_length_lt`), so the text is read in one
pass.

A token is a shape: `1e999` is a number token, whatever a reader makes of it.  A string token holds
no control character below the blank; `\u` escapes beyond the basic plane come as a pair of
surrogates, and a string token with half a pair is the token of no string.
-/

namespace ArrayFusion.Json

/-- A token: punctuation, a word, a number or a string. -/
inductive Token where
  | openArr
  | closeArr
  | openObj
  | closeObj
  | comma
  | colon
  | null
  | bool (b : Bool)
  | number (t : NumberToken)
  /-- A string, or `none` if half a pair of surrogates occurs in it. -/
  | text (s : Option String)

/-- The value of a hexadecimal digit. -/
def hexDigit? (c : Char) : Option Nat :=
  if '0' ≤ c && c ≤ '9' then some (c.toNat - 48)
  else if 'a' ≤ c && c ≤ 'f' then some (c.toNat - 87)
  else if 'A' ≤ c && c ≤ 'F' then some (c.toNat - 55)
  else none

/-- The number written by four hexadecimal digits. -/
def hex4? (a b c d : Char) : Option Nat := do
  return (((← hexDigit? a) * 16 + (← hexDigit? b)) * 16 + (← hexDigit? c)) * 16 + (← hexDigit? d)

/-- The character that a backslash and one more character stand for. -/
def shortEscape? : Char → Option Char
  | '"' => some '"'
  | '\\' => some '\\'
  | '/' => some '/'
  | 'b' => some '\x08'
  | 'f' => some '\x0c'
  | 'n' => some '\n'
  | 'r' => some '\r'
  | 't' => some '\t'
  | _ => none

/-- What the characters and escapes of a string spell, as far as it has been read. -/
inductive Spelled where
  /-- These characters, the latest first. -/
  | chars (read : List Char)
  /-- These characters and an upper surrogate, which must be followed by a lower one. -/
  | upper (read : List Char) (unit : Nat)
  /-- Nothing, because of a surrogate without its partner. -/
  | nothing

namespace Spelled

/-- The upper surrogates: units that need a lower one behind them. -/
def isUpper (n : Nat) : Bool := 0xD800 ≤ n && n ≤ 0xDBFF

/-- The lower surrogates: units that need an upper one in front of them. -/
def isLower (n : Nat) : Bool := 0xDC00 ≤ n && n ≤ 0xDFFF

/-- The character written by two surrogates. -/
def ofPair (upper lower : Nat) : Char :=
  Char.ofNat (0x10000 + (upper - 0xD800) * 0x400 + (lower - 0xDC00))

/-- A character comes next. -/
def add (c : Char) : Spelled → Spelled
  | .chars read => .chars (c :: read)
  | _ => .nothing

/-- A `\u` escape comes next. -/
def addUnit (n : Nat) : Spelled → Spelled
  | .chars read =>
    -- in the basic plane, unless it is one half of a pair
    if isUpper n then .upper read n
    else if isLower n then .nothing
    else .chars (Char.ofNat n :: read)
  | .upper read unit => if isLower n then .chars (ofPair unit n :: read) else .nothing
  | .nothing => .nothing

/-- The string, if there is one. -/
def string? : Spelled → Option String
  | .chars read => some (String.ofList read.reverse)
  | _ => none

end Spelled

/-- Reads a string up to its closing quote: what it spells, and what follows the quote. -/
def stringBody (read : Spelled) : List Char → Option (Spelled × List Char)
  | '"' :: rest => some (read, rest)
  | '\\' :: 'u' :: a :: b :: c :: d :: rest =>
    match hex4? a b c d with
    | none => none
    | some n => stringBody (read.addUnit n) rest
  | '\\' :: c :: rest =>
    match shortEscape? c with
    | none => none
    | some x => stringBody (read.add x) rest
  | c :: rest => if c.toNat < 0x20 then none else stringBody (read.add c) rest
  | [] => none

/-- Digits at the start of a text, as numbers, and what follows them. -/
def digits (cs : List Char) : List Nat × List Char :=
  ((cs.takeWhile Char.isDigit).map (·.toNat - 48), cs.dropWhile Char.isDigit)

/-- A fraction, if a point comes next: at least one digit must follow it. -/
def fraction? : List Char → Option (Option (List Nat) × List Char)
  | '.' :: cs =>
    match digits cs with
    | ([], _) => none
    | (ds, rest) => some (some ds, rest)
  | cs => some (none, cs)

/-- An exponent, if `e` or `E` comes next: a sign may follow, and at least one digit must. -/
def exponent? : List Char → Option (Option Int × List Char)
  | 'e' :: cs => digitsAfterSign cs
  | 'E' :: cs => digitsAfterSign cs
  | cs => some (none, cs)
where
  /-- The digits of an exponent behind its sign, if it has one. -/
  digitsAfterSign : List Char → Option (Option Int × List Char)
    | '+' :: cs => signed 1 cs
    | '-' :: cs => signed (-1) cs
    | cs => signed 1 cs
  /-- The digits of an exponent of the given sign. -/
  signed (sign : Int) (cs : List Char) : Option (Option Int × List Char) :=
    match digits cs with
    | ([], _) => none
    | (ds, rest) => some (some (sign * NumberToken.ofDigits ds), rest)

/-- A number token behind its sign: its integer part has no superfluous zero in front. -/
def number? (negative : Bool) (cs : List Char) : Option (NumberToken × List Char) :=
  match digits cs with
  | ([], _) => none
  -- a zero in front is the whole integer part
  | (0 :: _ :: _, _) => none
  | (whole, afterWhole) =>
    match fraction? afterWhole with
    | none => none
    | some (fraction, afterFraction) =>
      match exponent? afterFraction with
      | none => none
      | some (exponent, rest) => some (⟨negative, whole, fraction, exponent⟩, rest)

/-- What a character is by itself: a token, or a blank, which is skipped. -/
def single? : Char → Option (Option Token)
  | '[' => some (some .openArr)
  | ']' => some (some .closeArr)
  | '\x7b' => some (some .openObj)
  | '\x7d' => some (some .closeObj)
  | ',' => some (some .comma)
  | ':' => some (some .colon)
  | ' ' => some none
  | '\t' => some none
  | '\n' => some none
  | '\r' => some none
  | _ => none

/-- A word, a number or a string at the start of a text, and what follows it. -/
def atom? : List Char → Option (Token × List Char)
  | '"' :: rest =>
    (stringBody (.chars []) rest).map fun (s, rest) => (.text s.string?, rest)
  | '-' :: rest => (number? true rest).map fun (t, rest) => (.number t, rest)
  | 'n' :: 'u' :: 'l' :: 'l' :: rest => some (.null, rest)
  | 't' :: 'r' :: 'u' :: 'e' :: rest => some (.bool true, rest)
  | 'f' :: 'a' :: 'l' :: 's' :: 'e' :: rest => some (.bool false, rest)
  -- whatever begins like none of the others is a number, or nothing
  | cs => (number? false cs).map fun (t, rest) => (.number t, rest)

/-- One step of reading: a blank is skipped, anything else must be a token. -/
def step : List Char → Option (Option Token × List Char)
  | [] => none
  | c :: rest =>
    -- a single character is never the start of a longer token
    match single? c with
    | some t => some (t, rest)
    | none => (atom? (c :: rest)).map fun (t, rest) => (some t, rest)

theorem stringBody_length_lt {read cs s rest} (h : stringBody read cs = some (s, rest)) :
    rest.length < cs.length := by
  fun_induction stringBody read cs <;> simp_all <;> omega

theorem length_digits_le (cs : List Char) : (digits cs).2.length ≤ cs.length :=
  (List.dropWhile_sublist _).length_le

/-- Reading at least one digit shortens the text. -/
theorem length_digits_lt {cs ds rest} (h : digits cs = (ds, rest)) (hne : ds ≠ []) :
    rest.length < cs.length := by
  cases cs with
  | nil => simp_all [digits]
  | cons c cs =>
    by_cases hc : c.isDigit
    · have hrest : rest = cs.dropWhile Char.isDigit := by
        simpa [digits, hc] using (congrArg Prod.snd h).symm
      have hle : rest.length ≤ cs.length := hrest ▸ (List.dropWhile_sublist _).length_le
      exact Nat.lt_succ_of_le hle
    · simp_all [digits]

theorem fraction?_length_le {cs f rest} (h : fraction? cs = some (f, rest)) :
    rest.length ≤ cs.length := by
  unfold fraction? at h
  split at h
  · rename_i cs'
    have hle := length_digits_le cs'
    split at h
    · cases h
    · rename_i hd
      obtain ⟨_, rfl⟩ := Prod.mk.inj (Option.some.inj h)
      rw [hd] at hle
      exact Nat.le_succ_of_le hle
  · obtain ⟨_, rfl⟩ := Prod.mk.inj (Option.some.inj h)
    exact Nat.le_refl _

theorem exponent?_length_le {cs e rest} (h : exponent? cs = some (e, rest)) :
    rest.length ≤ cs.length := by
  have signed (sign : Int) (cs' : List Char) (h : exponent?.signed sign cs' = some (e, rest)) :
      rest.length ≤ cs'.length := by
    have hle := length_digits_le cs'
    unfold exponent?.signed at h
    split at h <;> simp_all
  have afterSign (cs' : List Char) (h : exponent?.digitsAfterSign cs' = some (e, rest)) :
      rest.length ≤ cs'.length := by
    unfold exponent?.digitsAfterSign at h
    split at h
    · exact Nat.le_succ_of_le (signed _ _ h)
    · exact Nat.le_succ_of_le (signed _ _ h)
    · exact signed _ _ h
  unfold exponent? at h
  split at h
  · exact Nat.le_succ_of_le (afterSign _ h)
  · exact Nat.le_succ_of_le (afterSign _ h)
  · simp_all

theorem number?_length_lt {negative cs t rest} (h : number? negative cs = some (t, rest)) :
    rest.length < cs.length := by
  unfold number? at h
  split at h
  · simp at h
  · simp at h
  · rename_i whole afterWhole hne _ hdigits
    have hw : afterWhole.length < cs.length :=
      length_digits_lt hdigits hne
    split at h
    · simp at h
    · rename_i hf
      have := fraction?_length_le hf
      split at h
      · simp at h
      · rename_i he
        have := exponent?_length_le he
        obtain ⟨_, rfl⟩ := Prod.mk.inj (Option.some.inj h)
        omega

theorem atom?_length_lt {cs t rest} (h : atom? cs = some (t, rest)) : rest.length < cs.length := by
  unfold atom? at h
  split at h
  · obtain ⟨_, hs, ht⟩ := Option.map_eq_some_iff.1 h
    obtain ⟨_, rfl⟩ := Prod.mk.inj ht
    exact Nat.lt_succ_of_lt (stringBody_length_lt hs)
  · obtain ⟨_, hn, ht⟩ := Option.map_eq_some_iff.1 h
    obtain ⟨_, rfl⟩ := Prod.mk.inj ht
    exact Nat.lt_succ_of_lt (number?_length_lt hn)
  · obtain ⟨_, rfl⟩ := Prod.mk.inj (Option.some.inj h)
    simp only [List.length_cons]
    omega
  · obtain ⟨_, rfl⟩ := Prod.mk.inj (Option.some.inj h)
    simp only [List.length_cons]
    omega
  · obtain ⟨_, rfl⟩ := Prod.mk.inj (Option.some.inj h)
    simp only [List.length_cons]
    omega
  · obtain ⟨_, hn, ht⟩ := Option.map_eq_some_iff.1 h
    obtain ⟨_, rfl⟩ := Prod.mk.inj ht
    exact number?_length_lt hn

/-- A step consumes at least one character. -/
theorem step_length_lt {cs t rest} (h : step cs = some (t, rest)) : rest.length < cs.length := by
  unfold step at h
  split at h
  · cases h
  · split at h
    · obtain ⟨_, rfl⟩ := Prod.mk.inj (Option.some.inj h)
      exact Nat.lt_succ_self _
    · obtain ⟨_, ha, ht⟩ := Option.map_eq_some_iff.1 h
      obtain ⟨_, rfl⟩ := Prod.mk.inj ht
      exact atom?_length_lt ha

/-- The tokens of a text, after those of `done` in reverse, or `none` if some part of it is no
token. -/
def tokensFrom (done : List Token) (cs : List Char) : Option (List Token) :=
  match cs with
  | [] => some done.reverse
  | c :: rest =>
    match _h : step (c :: rest) with
    | none => none
    | some (none, rest') => tokensFrom done rest'
    | some (some t, rest') => tokensFrom (t :: done) rest'
termination_by cs.length
decreasing_by all_goals exact step_length_lt _h

/-- The tokens of a text. -/
def tokenize (s : String) : Option (List Token) := tokensFrom [] s.toList

end ArrayFusion.Json
