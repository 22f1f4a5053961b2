import ArrayFusion.Json.Document
import ArrayFusion.Json.Printer

/-!
# Texts of JSON values are read back

What a printer writes is cut into tokens again, and the tokens make up the value that was written
(`parse?_pretty`, `parse?_render`).  Two relations carry the proof.  `Lexes` says into which tokens
characters are cut; the end of a number is only seen by what follows, so it asks for a delimiter,
and `Cuts` is the same without one.  `Parses` says which value tokens make up, for a reader inside
any containers.  A text `Spells` a value if both hold, and the containers are put together from the
texts of their parts with whatever blanks the printer puts between them.

What is exact is read back: everything but floats, whose decimals may be rounded, integers beyond
64 bits, which are read as floats, and unreadable parts, which are written as null.
-/

namespace ArrayFusion.Json

/-! ## Tokens -/

/-- What a step has read goes in front of the tokens that were read before. -/
theorem tokensFrom_step {cs rest : List Char} {t : Option Token} (h : step cs = some (t, rest))
    (done : List Token) : tokensFrom done cs = tokensFrom (t.toList ++ done) rest := by
  cases cs with
  | nil => cases h
  | cons c cs =>
    rw [tokensFrom]
    split
    · rename_i hnone
      rw [h] at hnone
      cases hnone
    · rename_i hstep
      rw [h] at hstep
      cases hstep
      rfl
    · rename_i hstep
      rw [h] at hstep
      cases hstep
      rfl

/-- A number must not go on behind its last digit: what follows is punctuation, a blank or the end
of the text. -/
def Delimits (rest : List Char) : Prop := ∀ c ∈ rest.head?, (single? c).isSome

/-- The characters are cut into the tokens, whatever follows. -/
def Cuts (cs : List Char) (ts : List Token) : Prop :=
  ∀ done rest, tokensFrom done (cs ++ rest) = tokensFrom (ts.reverse ++ done) rest

/-- The characters are cut into the tokens if a delimiter follows. -/
def Lexes (cs : List Char) (ts : List Token) : Prop :=
  ∀ done rest, Delimits rest → tokensFrom done (cs ++ rest) = tokensFrom (ts.reverse ++ done) rest

theorem delimits_nil : Delimits [] := nofun

/-- A text delimits what is in front of it if it begins with a token of one character. -/
theorem delimits_cons {c : Char} {cs : List Char} (h : (single? c).isSome) :
    Delimits (c :: cs) := by
  intro _ hc
  cases hc
  exact h

variable {cs cs' : List Char} {ts ts' : List Token}

/-- A text that is cut anywhere is cut at its end too. -/
theorem Cuts.lexes (h : Cuts cs ts) : Lexes cs ts := fun done rest _ => h done rest

theorem cuts_nil : Cuts [] [] := fun _ _ => rfl

/-- Texts that are cut anywhere can be put together. -/
theorem Cuts.append (h : Cuts cs ts) (h' : Cuts cs' ts') : Cuts (cs ++ cs') (ts ++ ts') := by
  intro done rest
  rw [List.append_assoc, h, h', List.reverse_append, List.append_assoc]

/-- Behind a text that is cut anywhere, another text can be read by itself. -/
theorem Cuts.append_lexes (h : Cuts cs ts) (h' : Lexes cs' ts') :
    Lexes (cs ++ cs') (ts ++ ts') := by
  intro done rest hrest
  rw [List.append_assoc, h, h' _ _ hrest, List.reverse_append, List.append_assoc]

/-- Behind characters that want a delimiter, characters that begin with one can be cut. -/
theorem Lexes.append_cuts {c : Char} (h : Lexes cs ts) (h' : Cuts (c :: cs') ts')
    (hc : (single? c).isSome) : Cuts (cs ++ c :: cs') (ts ++ ts') := by
  intro done rest
  rw [List.append_assoc, List.cons_append, h _ _ (delimits_cons hc), ← List.cons_append, h',
    List.reverse_append, List.append_assoc]

/-- The tokens of a text are those into which its characters are cut. -/
theorem Lexes.tokenize {s : String} (h : Lexes s.toList ts) : tokenize s = some ts := by
  have hs := h [] [] delimits_nil
  rw [List.append_nil, List.append_nil] at hs
  rw [Json.tokenize, hs, tokensFrom, List.reverse_reverse]

/-- One step of the scanner cuts what it reads, whatever follows. -/
theorem cuts_of_step {t : Option Token} (h : ∀ rest, step (cs ++ rest) = some (t, rest)) :
    Cuts cs t.toList := by
  intro done rest
  rw [tokensFrom_step (h rest)]
  cases t <;> rfl

/-- A token of one character is cut anywhere. -/
theorem cuts_single {c : Char} {t : Token} (h : single? c = some (some t)) : Cuts [c] [t] :=
  cuts_of_step (t := some t) fun rest => by rw [List.singleton_append, step, h]

/-- Blanks are cut anywhere, and leave no token. -/
theorem cuts_blank {c : Char} (h : single? c = some none) : Cuts [c] [] :=
  cuts_of_step (t := none) fun rest => by rw [List.singleton_append, step, h]

/-- A longer token is cut anywhere if it ends by itself. -/
theorem cuts_atom {c : Char} {t : Token} (hc : single? c = none)
    (h : ∀ rest, atom? (c :: cs ++ rest) = some (t, rest)) : Cuts (c :: cs) [t] :=
  cuts_of_step (t := some t) fun rest => by
    rw [List.cons_append, step, hc, ← List.cons_append, h]
    rfl

/-- Indentation leaves no tokens. -/
theorem cuts_blanks (n : Nat) : Cuts (List.replicate n ' ') [] := by
  induction n with
  | zero => exact cuts_nil
  | succ n ih => exact (cuts_blank (c := ' ') rfl).append ih

/-- A line break with indentation leaves no tokens. -/
theorem cuts_newline (depth : Nat) : Cuts (newline depth).toList [] := by
  rw [newline, String.toList_ofList]
  exact (cuts_blank (c := '\n') rfl).append (cuts_blanks _)

theorem cuts_null : Cuts "null".toList [.null] := cuts_atom rfl fun _ => rfl

theorem cuts_bool (b : Bool) : Cuts (if b then "true" else "false").toList [.bool b] := by
  cases b with
  | true => exact cuts_atom rfl fun _ => rfl
  | false => exact cuts_atom rfl fun _ => rfl

/-! ### Strings -/

theorem hexDigit?_hexChar : ∀ n < 16, hexDigit? (hexChar n) = some n := by decide

/-- The escape of a control character is read as that character. -/
theorem hex4?_escape {n : Nat} (h : n < 0x20) :
    hex4? '0' '0' (hexChar (n / 16)) (hexChar (n % 16)) = some n := by
  have h0 : hexDigit? '0' = some 0 := rfl
  rw [hex4?, h0, hexDigit?_hexChar _ (by omega), hexDigit?_hexChar _ (by omega)]
  change some ((0 * 16 + n / 16) * 16 + n % 16) = some n
  congr 1
  omega

/-- Reading a character as it stands in a string gives that character. -/
theorem stringBody_escapeChar (read : List Char) (c : Char) (rest : List Char) :
    stringBody (.chars read) (escapeChar c ++ rest) = stringBody (.chars (c :: read)) rest := by
  unfold escapeChar
  split
  · rfl
  · rfl
  · rfl
  · rfl
  · rfl
  · rfl
  · rfl
  · -- of the characters without an escape of their own the control characters are written as
    -- numbers
    rename_i hquote hbackslash _ _ _ _ _
    split
    · rename_i hc
      change stringBody _ ('\\' :: 'u' :: '0' :: '0' :: hexChar (c.toNat / 16)
        :: hexChar (c.toNat % 16) :: rest) = _
      -- such a number is no half of a pair, so it is the character itself
      have hunit : (Spelled.chars read).addUnit c.toNat = .chars (c :: read) := by
        have hupper : Spelled.isUpper c.toNat = false := by
          simp only [Spelled.isUpper, Bool.and_eq_false_iff, decide_eq_false_iff_not]
          omega
        have hlower : Spelled.isLower c.toNat = false := by
          simp only [Spelled.isLower, Bool.and_eq_false_iff, decide_eq_false_iff_not]
          omega
        simp only [Spelled.addUnit, hupper, hlower, Bool.false_eq_true, if_false,
          Char.ofNat_toNat]
      rw [stringBody, hex4?_escape hc]
      simp only [hunit]
    · rename_i hc
      -- all others stand for themselves, being neither a quote nor a backslash
      rw [List.singleton_append, stringBody.eq_def]
      split
      · rename_i heq
        cases heq
        exact absurd rfl hquote
      · rename_i heq
        cases heq
        exact absurd rfl hbackslash
      · rename_i heq
        cases heq
        exact absurd rfl hbackslash
      · rename_i heq
        cases heq
        rw [if_neg hc]
        rfl
      · rename_i heq
        cases heq

/-- An escaped text is read as the text, up to its quotation mark. -/
theorem stringBody_escaped (read cs rest : List Char) :
    stringBody (.chars read) (cs.flatMap escapeChar ++ '"' :: rest)
      = some (.chars (cs.reverse ++ read), rest) := by
  induction cs generalizing read with
  | nil => rfl
  | cons c cs ih =>
    rw [List.flatMap_cons, List.append_assoc, stringBody_escapeChar, ih, List.reverse_cons,
      List.append_assoc]
    rfl

/-- A quoted text is one token, wherever it stands. -/
theorem cuts_stringText (s : String) : Cuts (stringText s).toList [.text (some s)] := by
  rw [stringText, String.toList_ofList]
  change Cuts ('"' :: (s.toList.flatMap escapeChar ++ ['"'])) _
  refine cuts_atom rfl fun rest => ?_
  rw [List.cons_append, List.append_assoc, List.singleton_append, atom?, stringBody_escaped]
  simp only [Option.map_some, Spelled.string?, List.append_nil, List.reverse_reverse,
    String.ofList_toList]

/-! ### Integers -/

/-- The decimal digits of a number, the first one first. -/
def decimal (n : Nat) : List Nat := (Nat.toDigits 10 n).map (·.toNat - 48)

theorem digitChar_value : ∀ d < 10, d.digitChar.toNat - 48 = d := by decide

/-- A number below ten has one digit. -/
theorem decimal_of_lt {n : Nat} (h : n < 10) : decimal n = [n] := by
  rw [decimal, Nat.toDigits_of_lt_base h, List.map_singleton, digitChar_value n h]

/-- The last digit of a larger number is the rest by ten. -/
theorem decimal_of_le {n : Nat} (h : 10 ≤ n) : decimal n = decimal (n / 10) ++ [n % 10] := by
  rw [decimal, Nat.toDigits_of_base_le (by decide) h, List.map_append, List.map_singleton,
    digitChar_value _ (Nat.mod_lt _ (by decide)), decimal]

/-- Each number has a digit. -/
theorem decimal_ne_nil (n : Nat) : decimal n ≠ [] := fun h =>
  Nat.toDigits_ne_nil (List.map_eq_nil_iff.1 h)

/-- Only zero has a zero as its first digit. -/
theorem eq_zero_of_head?_decimal (n : Nat) (h : (decimal n).head? = some 0) : n = 0 := by
  induction n using Nat.strongRecOn with
  | ind n ih =>
    by_cases hn : n < 10
    · rw [decimal_of_lt hn] at h
      exact Option.some.inj h
    · have hle : 10 ≤ n := Nat.le_of_not_lt hn
      obtain ⟨d, ds, hds⟩ := List.exists_cons_of_ne_nil (decimal_ne_nil (n / 10))
      rw [decimal_of_le hle, hds, List.cons_append, List.head?_cons] at h
      have hzero := ih (n / 10) (Nat.div_lt_self (by omega) (by decide))
        (by rw [hds, List.head?_cons, h])
      omega

/-- No number of several digits begins with a zero. -/
theorem decimal_ne_leading_zero (n d : Nat) (ds : List Nat) : decimal n ≠ 0 :: d :: ds := by
  intro h
  have hn : n = 0 := eq_zero_of_head?_decimal n (by rw [h]; rfl)
  rw [hn, decimal_of_lt (by decide)] at h
  cases h

/-- The digits of a number have its value. -/
theorem ofDigits_decimal (n : Nat) : NumberToken.ofDigits (decimal n) = n := by
  have h := @Nat.ofDigitChars_ten_toDigits n
  rw [Nat.ofDigitChars_eq_foldl] at h
  rw [decimal, NumberToken.ofDigits, List.foldl_map]
  refine Eq.trans ?_ h
  congr 1
  funext m c
  rw [Nat.mul_comm]
  rfl

/-- What delimits a number is no digit. -/
theorem not_isDigit_of_single? {c : Char} (h : (single? c).isSome) : c.isDigit = false := by
  unfold single? at h
  split at h
  all_goals first | rfl | cases h

/-- The digits of a number are read up to what delimits it. -/
theorem digits_toDigits {rest : List Char} (n : Nat) (h : Delimits rest) :
    digits (Nat.toDigits 10 n ++ rest) = (decimal n, rest) := by
  have hall : ∀ c ∈ Nat.toDigits 10 n, c.isDigit = true := fun c hc =>
    Nat.isDigit_of_mem_toDigits (by decide) (Nat.le_refl _) hc
  have hrest : rest.takeWhile Char.isDigit = [] ∧ rest.dropWhile Char.isDigit = rest := by
    cases rest with
    | nil => exact ⟨rfl, rfl⟩
    | cons c rest =>
      have hc := not_isDigit_of_single? (h c rfl)
      exact ⟨by rw [List.takeWhile_cons, hc]; rfl, by rw [List.dropWhile_cons, hc]; rfl⟩
  rw [digits, List.takeWhile_append_of_pos hall, List.dropWhile_append_of_pos hall, hrest.1,
    hrest.2, List.append_nil, decimal]

/-- What delimits a number does not begin a fraction. -/
theorem fraction?_of_delimits {rest : List Char} (h : Delimits rest) :
    fraction? rest = some (none, rest) := by
  unfold fraction?
  split
  · cases h '.' rfl
  · rfl

/-- What delimits a number does not begin an exponent. -/
theorem exponent?_of_delimits {rest : List Char} (h : Delimits rest) :
    exponent? rest = some (none, rest) := by
  unfold exponent?
  split
  · cases h 'e' rfl
  · cases h 'E' rfl
  · rfl

/-- The text of a number is read as its digits. -/
theorem number?_toDigits {rest : List Char} (negative : Bool) (n : Nat) (h : Delimits rest) :
    number? negative (Nat.toDigits 10 n ++ rest)
      = some (⟨negative, decimal n, none, none⟩, rest) := by
  rw [number?, digits_toDigits n h]
  split
  · rename_i heq
    exact absurd (congrArg Prod.fst heq) (decimal_ne_nil n)
  · rename_i heq
    exact absurd (congrArg Prod.fst heq) (decimal_ne_leading_zero n _ _)
  · rename_i heq
    cases heq
    rw [fraction?_of_delimits h]
    simp only [exponent?_of_delimits h]

/-- The token of an integer: its sign and its digits. -/
def integerToken : Int → NumberToken
  | .ofNat n => ⟨false, decimal n, none, none⟩
  | .negSucc n => ⟨true, decimal (n + 1), none, none⟩

/-- A token for an integer of the machine stands for that integer, however reals are rounded. -/
theorem toJson_integerToken {n : Int} (r : Rounding) (h : isMachineInt n = true) :
    (integerToken n).toJson r = .int n := by
  cases n with
  | ofNat n =>
    have hn : isMachineInt (n : Int) = true := h
    simp [integerToken, NumberToken.toJson, ofDigits_decimal, hn]
  | negSucc n =>
    -- a negative number is not zero, so the token is not that of minus zero
    have hn : (-((n + 1 : Nat) : Int)) = Int.negSucc n := rfl
    simp only [integerToken, NumberToken.toJson, ofDigits_decimal, if_true, hn, h,
      Option.isNone_none, Bool.and_self, Bool.true_and]
    rfl

/-- A digit is neither a token by itself nor the start of a word or a string. -/
theorem step_of_isDigit {c : Char} (h : c.isDigit = true) (cs : List Char) :
    step (c :: cs) = (number? false (c :: cs)).map fun (t, rest) => (some (.number t), rest) := by
  -- a digit is none of the single characters, and it begins no other word
  have hsingle : single? c = none := by
    cases hc : single? c with
    | none => rfl
    | some t =>
      have := not_isDigit_of_single? (c := c) (by rw [hc]; rfl)
      rw [h] at this
      cases this
  rw [step, hsingle]
  change (atom? (c :: cs)).map _ = _
  unfold atom?
  split
  all_goals first
    | rename_i heq
      cases heq
      cases h
    | rw [Option.map_map]
      rfl

/-- The text of an integer is one token. -/
theorem lexes_int (n : Int) : Lexes (toString n).toList [.number (integerToken n)] := by
  intro done rest hrest
  refine tokensFrom_step (t := some (.number (integerToken n))) ?_ done
  cases n with
  | ofNat n =>
    change step ((Nat.repr n).toList ++ rest) = _
    rw [Nat.repr_eq_ofList_toDigits, String.toList_ofList]
    have hnumber := number?_toDigits false n hrest
    cases hds : Nat.toDigits 10 n with
    | nil => exact absurd hds Nat.toDigits_ne_nil
    | cons c cs =>
      -- the first character of a numeral is a digit
      have hc : c.isDigit = true :=
        Nat.isDigit_of_mem_toDigits (b := 10) (n := n) (by decide) (Nat.le_refl _)
          (by rw [hds]; exact List.mem_cons_self)
      rw [hds] at hnumber
      rw [List.cons_append, step_of_isDigit hc, ← List.cons_append, hnumber]
      rfl
  | negSucc n =>
    change step (("-" ++ Nat.repr (n + 1)).toList ++ rest) = _
    -- the minus sign is read with the number behind it
    rw [String.toList_append, Nat.repr_eq_ofList_toDigits, String.toList_ofList,
      String.toList_ofList, List.append_assoc]
    change (atom? ('-' :: (Nat.toDigits 10 (n + 1) ++ rest))).map _ = _
    rw [atom?, number?_toDigits _ _ hrest]
    rfl

/-! ## Values -/

/-- Behind the tokens, a reader that expected a value has read this one. -/
def Parses (r : Rounding) (ts : List Token) (j : Json) : Prop :=
  ∀ stack, ts.foldlM (Reader.read r) ⟨.value, stack⟩ = some ⟨.complete j, stack⟩

/-- The characters spell the value: they are cut into tokens that make it up. -/
def Spells (r : Rounding) (cs : List Char) (j : Json) : Prop := ∃ ts, Lexes cs ts ∧ Parses r ts j

section

variable {r : Rounding} {j : Json}

/-- What a text spells is what is read from it. -/
theorem Spells.parse? {s : String} (h : Spells r s.toList j) : parse? r s = some j := by
  obtain ⟨ts, hlexes, hparses⟩ := h
  rw [Json.parse?, hlexes.tokenize, Option.bind_some, ofTokens?, Reader.start, hparses]
  rfl

/-- A delimiter behind a value does no harm. -/
theorem Spells.append_blanks {c : Char} (h : Spells r cs j) (hc : single? c = some none)
    (hcs : Cuts cs' []) : Spells r (cs ++ c :: cs') j := by
  obtain ⟨ts, hlexes, hparses⟩ := h
  have hblanks : Cuts (c :: cs') [] := (cuts_blank hc).append hcs
  refine ⟨ts, ?_, hparses⟩
  have hcuts := hlexes.append_cuts hblanks (by rw [hc]; rfl)
  rw [List.append_nil] at hcuts
  exact hcuts.lexes

/-- A token for a value is that value. -/
theorem parses_value {t : Token} (h : t.value? r = some j) : Parses r [t] j := by
  intro stack
  rw [List.foldlM_cons]
  change (Reader.read r ⟨.value, stack⟩ t).bind some = _
  rw [Option.bind_fun_some]
  cases t with
  | text s =>
    cases s with
    | none | some s =>
      cases h
      rfl
  | null | bool | number =>
    cases h
    rfl
  | openArr | closeArr | openObj | closeObj | comma | colon => cases h

/-! ### Arrays -/

/-- Unless the array is closed at once, its first item is read like any other value. -/
theorem foldlM_firstItem {stack : List Frame} {reader : Reader} (hne : ts ≠ [])
    (h : ts.foldlM (Reader.read r) ⟨.value, .arr [] :: stack⟩ = some reader) :
    ts.foldlM (Reader.read r) ⟨.firstItem, stack⟩ = some reader := by
  cases ts with
  | nil => exact absurd rfl hne
  | cons t ts =>
    cases t with
    | closeArr => cases h
    | _ => exact h

variable {text : Json → List Char} {sep : List Char}

/-- Items with commas between them make up an array: they are read behind those that were seen
before, up to the closing bracket. -/
theorem exists_itemTokens (hsep : Cuts (',' :: sep) [.comma]) :
    ∀ {items : List Json}, items ≠ [] → (∀ j ∈ items, Spells r (text j) j) →
      ∃ ts, Lexes ((',' :: sep).intercalate (items.map text)) ts ∧
        ∀ seen stack, (ts ++ [Token.closeArr]).foldlM (Reader.read r) ⟨.value, .arr seen :: stack⟩
          = some ⟨.complete (.arr (seen.reverse ++ items)), stack⟩
  | [], hne, _ => absurd rfl hne
  | [j], _, h => by
    obtain ⟨ts, hlexes, hparses⟩ := h j List.mem_cons_self
    refine ⟨ts, ?_, fun seen stack => ?_⟩
    · rw [List.map_singleton, List.intercalate_singleton]
      exact hlexes
    · rw [List.foldlM_append, hparses]
      change some _ = _
      rw [List.reverse_cons]
  | j :: j' :: items, _, h => by
    obtain ⟨hj, hitems⟩ := List.forall_mem_cons.1 h
    obtain ⟨ts, hlexes, hparses⟩ := hj
    -- the items behind the first one are read with that among those seen
    obtain ⟨ts', hlexes', hparses'⟩ := exists_itemTokens hsep (List.cons_ne_nil j' items) hitems
    refine ⟨ts ++ [.comma] ++ ts', ?_, fun seen stack => ?_⟩
    · rw [List.map_cons, List.map_cons, List.intercalate_cons_of_ne_nil (List.cons_ne_nil _ _)]
      exact (hlexes.append_cuts hsep rfl).append_lexes hlexes'
    · rw [List.append_assoc, List.append_assoc, List.foldlM_append, hparses]
      have hrun := hparses' (j :: seen) stack
      rw [List.reverse_cons, List.append_assoc] at hrun
      exact hrun

/-- A bracket, items with commas between them and a closing bracket spell an array.  There may be
blanks behind the opening bracket and behind each comma, and in front of the closing bracket. -/
theorem spells_arr {c : Char} {gap close : List Char} {items : List Json}
    (hopen : Cuts ('[' :: gap) [.openArr]) (hsep : Cuts (',' :: sep) [.comma])
    (hc : (single? c).isSome) (hclose : Cuts (c :: close) [.closeArr]) (hne : items ≠ [])
    (h : ∀ j ∈ items, Spells r (text j) j) :
    Spells r ('[' :: gap ++ (',' :: sep).intercalate (items.map text) ++ c :: close)
      (.arr items) := by
  obtain ⟨ts, hlexes, hparses⟩ := exists_itemTokens hsep hne h
  refine ⟨.openArr :: (ts ++ [.closeArr]), ?_, fun stack => ?_⟩
  · exact ((hopen.append_lexes hlexes).append_cuts hclose hc).lexes
  · exact foldlM_firstItem (List.append_ne_nil_of_right_ne_nil _ (List.cons_ne_nil _ _))
      (hparses [] stack)

/-! ### Objects -/

/-- Fields with commas between them make up an object: they are read behind those that were seen
before, up to the closing brace. -/
theorem exists_fieldTokens {colon : List Char} (hsep : Cuts (',' :: sep) [.comma])
    (hcolon : Cuts (':' :: colon) [.colon]) :
    ∀ {fields : List (String × Json)}, fields ≠ [] → (∀ f ∈ fields, Spells r (text f.2) f.2) →
      ∃ key ts, Lexes ((',' :: sep).intercalate (fields.map fun f =>
          (stringText f.1).toList ++ ':' :: colon ++ text f.2)) (.text (some key) :: ts) ∧
        ∀ seen stack, (ts ++ [Token.closeObj]).foldlM (Reader.read r)
          ⟨.colon (some seen) (some key), stack⟩
            = some ⟨.complete (.obj (seen.reverse ++ fields)), stack⟩
  | [], hne, _ => absurd rfl hne
  | [(k, j)], _, h => by
    obtain ⟨ts, hlexes, hparses⟩ := h (k, j) List.mem_cons_self
    refine ⟨k, .colon :: ts, ?_, fun seen stack => ?_⟩
    · rw [List.map_singleton, List.intercalate_singleton]
      exact ((cuts_stringText k).append hcolon).append_lexes hlexes
    · -- the reader is behind the key, and waits for its value
      change (ts ++ [Token.closeObj]).foldlM _
        (Reader.mk .value (.obj (some seen) (some k) :: stack))
        = _
      rw [List.foldlM_append, hparses]
      change some (Reader.mk (.complete (.obj ((k, j) :: seen).reverse)) _) = _
      rw [List.reverse_cons]
  | (k, j) :: f :: fields, _, h => by
    obtain ⟨hj, hfields⟩ := List.forall_mem_cons.1 h
    obtain ⟨ts, hlexes, hparses⟩ := hj
    -- the fields behind the first one begin with a key of their own
    obtain ⟨k', ts', hlexes', hparses'⟩ :=
      exists_fieldTokens hsep hcolon (List.cons_ne_nil f fields) hfields
    refine ⟨k, .colon :: ts ++ [.comma] ++ .text (some k') :: ts', ?_, fun seen stack => ?_⟩
    · rw [List.map_cons, List.map_cons, List.intercalate_cons_of_ne_nil (List.cons_ne_nil _ _)]
      exact ((((cuts_stringText k).append hcolon).append_lexes hlexes).append_cuts hsep
        rfl).append_lexes hlexes'
    · change (((ts ++ [Token.comma]) ++ _) ++ [Token.closeObj]).foldlM _
        (Reader.mk .value (.obj (some seen) (some k) :: stack)) = _
      rw [List.append_assoc, List.append_assoc, List.foldlM_append, hparses]
      have hrun := hparses' ((k, j) :: seen) stack
      rw [List.reverse_cons, List.append_assoc] at hrun
      exact hrun

/-- A brace, fields with commas between them and a closing brace spell an object, with blanks as in
an array and perhaps behind a colon. -/
theorem spells_obj (text : Json → List Char) {c : Char} {gap colon close : List Char}
    {fields : List (String × Json)} (hopen : Cuts ('\x7b' :: gap) [.openObj])
    (hsep : Cuts (',' :: sep) [.comma])
    (hcolon : Cuts (':' :: colon) [.colon]) (hc : (single? c).isSome)
    (hclose : Cuts (c :: close) [.closeObj]) (hne : fields ≠ [])
    (h : ∀ f ∈ fields, Spells r (text f.2) f.2) :
    Spells r ('\x7b' :: gap ++ (',' :: sep).intercalate (fields.map fun f =>
      (stringText f.1).toList ++ ':' :: colon ++ text f.2) ++ c :: close) (.obj fields) := by
  obtain ⟨k, ts, hlexes, hparses⟩ := exists_fieldTokens hsep hcolon hne h
  refine ⟨.openObj :: .text (some k) :: (ts ++ [Token.closeObj]), ?_, fun stack => hparses [] stack⟩
  exact ((hopen.append_lexes hlexes).append_cuts hclose hc).lexes

/-! ### Leaves and empty containers -/

theorem spells_null : Spells r "null".toList .null := ⟨_, cuts_null.lexes, parses_value rfl⟩

theorem spells_bool (b : Bool) : Spells r (if b then "true" else "false").toList (.bool b) :=
  ⟨_, (cuts_bool b).lexes, parses_value rfl⟩

/-- An integer of the machine is read back. -/
theorem spells_int {n : Int} (h : isMachineInt n = true) : Spells r (toString n).toList (.int n) :=
  ⟨_, lexes_int n, parses_value (congrArg some (toJson_integerToken r h))⟩

/-- A text is read back. -/
theorem spells_str (s : String) : Spells r (stringText s).toList (.str s) :=
  ⟨_, (cuts_stringText s).lexes, parses_value rfl⟩

theorem cuts_brackets : Cuts "[]".toList [.openArr, .closeArr] :=
  (cuts_single (c := '[') rfl).append (cuts_single (c := ']') rfl)

theorem cuts_braces : Cuts "\x7b\x7d".toList [.openObj, .closeObj] :=
  (cuts_single (c := '\x7b') rfl).append (cuts_single (c := '\x7d') rfl)

theorem spells_nil : Spells r "[]".toList (.arr []) := ⟨_, cuts_brackets.lexes, fun _ => rfl⟩

theorem spells_empty : Spells r "\x7b\x7d".toList (.obj []) := ⟨_, cuts_braces.lexes, fun _ => rfl⟩

end

/-! ## Printed values -/

mutual

/-- Does the text of the value say all of it?  A float may be read differently, and what is
unreadable is written like null. -/
def isExact : Json → Bool
  | .int n => isMachineInt n
  | .real _ => false
  | .unreadable => false
  | .arr items => areExact items
  | .obj fields => haveExact fields
  | _ => true

/-- Do the texts of the items say all of them? -/
def areExact : List Json → Bool
  | [] => true
  | j :: rest => isExact j && areExact rest

/-- Do the texts of the fields say all of their values? -/
def haveExact : List (String × Json) → Bool
  | [] => true
  | (_, j) :: rest => isExact j && haveExact rest

end

@[simp] theorem isExact_obj (fields : List (String × Json)) :
    (obj fields).isExact = fields.all (·.2.isExact) := by
  rw [isExact]
  induction fields with
  | nil => rfl
  | cons f fields ih => rw [haveExact, ih, List.all_cons]

@[simp] theorem isExact_arr (items : List Json) : (arr items).isExact = items.all isExact := by
  rw [isExact]
  induction items with
  | nil => rfl
  | cons j items ih => rw [areExact, ih, List.all_cons]

@[simp] theorem isExact_str (s : String) : (str s).isExact = true := rfl

/-- The items of an array are printed one by one. -/
theorem prettyItems_eq (depth : Nat) (items : List Json) :
    prettyItems depth items = items.map (prettyAt depth) := by
  induction items with
  | nil => rfl
  | cons j items ih => rw [prettyItems, ih, List.map_cons]

/-- The fields of an object are printed one by one, each behind its key. -/
theorem prettyFields_eq (depth : Nat) (fields : List (String × Json)) :
    prettyFields depth fields
      = fields.map fun f => stringText f.1 ++ ": " ++ prettyAt depth f.2 := by
  induction fields with
  | nil => rfl
  | cons f fields ih => rw [prettyFields, ih, List.map_cons]

/-- The blanks in front of a line. -/
theorem toList_newline (depth : Nat) :
    (newline depth).toList = '\n' :: List.replicate (2 * depth) ' ' := by
  rw [newline, String.toList_ofList]

/-- A block is its items on lines of their own, between its brackets. -/
theorem toList_block {α : Type} {depth : Nat} {opening closing : String} {xs : List α}
    (text : α → String) (hne : xs ≠ []) : (block depth opening closing (xs.map text)).toList
      = opening.toList ++ (newline (depth + 1)).toList
        ++ (',' :: (newline (depth + 1)).toList).intercalate (xs.map fun x => (text x).toList)
        ++ ((newline depth).toList ++ closing.toList) := by
  cases xs with
  | nil => exact absurd rfl hne
  | cons x xs =>
    rw [List.map_cons, block, ← List.map_cons]
    · simp only [String.toList_append, String.toList_intercalate, List.map_map, List.append_assoc]
      rfl
    · exact nofun

/-- A closing bracket on a line of its own is one token. -/
theorem cuts_newline_close {c : Char} {t : Token} (depth : Nat) (h : single? c = some (some t)) :
    Cuts ('\n' :: (List.replicate (2 * depth) ' ' ++ [c])) [t] := by
  have hcuts := (cuts_newline depth).append (cuts_single h)
  rwa [toList_newline] at hcuts

/-- An opening bracket or a comma in front of a line break is one token. -/
theorem cuts_newline_after {c : Char} {t : Token} (depth : Nat) (h : single? c = some (some t)) :
    Cuts (c :: (newline depth).toList) [t] :=
  (cuts_single h).append (cuts_newline depth)

mutual

/-- Each part on a line of its own, the text of an exact value spells it. -/
theorem spells_prettyAt (r : Rounding) : ∀ (j : Json) (depth : Nat), j.isExact = true →
    Spells r (prettyAt depth j).toList j
  | .null, _, _ => spells_null
  | .bool b, _, _ => spells_bool b
  | .int _, _, h => spells_int h
  | .str s, _, _ => spells_str s
  | .arr [], _, _ => spells_nil
  | .obj [], _, _ => spells_empty
  | .arr (j :: items), depth, h => by
    have hitems := spells_prettyItems r (j :: items) (depth + 1) h
    have hopen : "[".toList = ['['] := rfl
    have hclose : "]".toList = [']'] := rfl
    -- the block has each item on a line of its own, one level deeper
    rw [prettyAt, prettyItems_eq, toList_block _ (List.cons_ne_nil _ _),
      toList_newline depth, hopen, hclose]
    exact spells_arr (cuts_newline_after (depth + 1) rfl) (cuts_newline_after (depth + 1) rfl) rfl
      (cuts_newline_close depth rfl) (List.cons_ne_nil j items) hitems
  | .obj (f :: fields), depth, h => by
    have hfields := spells_prettyFields r (f :: fields) (depth + 1) h
    have hcolon : ": ".toList = [':', ' '] := rfl
    have htext (f : String × Json) : (stringText f.1 ++ ": " ++ prettyAt (depth + 1) f.2).toList
        = (stringText f.1).toList ++ [':', ' '] ++ (prettyAt (depth + 1) f.2).toList := by
      rw [String.toList_append, String.toList_append, hcolon]
    have hopen : "\x7b".toList = ['\x7b'] := rfl
    have hclose : "\x7d".toList = ['\x7d'] := rfl
    rw [prettyAt, prettyFields_eq, toList_block _ (List.cons_ne_nil _ _),
      toList_newline depth, hopen, hclose]
    simp only [htext]
    exact spells_obj (fun j => (prettyAt (depth + 1) j).toList) (cuts_newline_after (depth + 1) rfl)
      (cuts_newline_after (depth + 1) rfl) ((cuts_single rfl).append (cuts_blank rfl)) rfl
      (cuts_newline_close depth rfl)
      (List.cons_ne_nil f fields) hfields

/-- All items of an exact array are read back. -/
theorem spells_prettyItems (r : Rounding) : ∀ (items : List Json) (depth : Nat),
    areExact items = true → ∀ j ∈ items, Spells r (prettyAt depth j).toList j
  | [], _, _ => nofun
  | j :: items, depth, h => by
    obtain ⟨hj, hitems⟩ := Bool.and_eq_true_iff.1 h
    exact List.forall_mem_cons.2 ⟨spells_prettyAt r j depth hj,
      spells_prettyItems r items depth hitems⟩

/-- All fields of an exact object are read back. -/
theorem spells_prettyFields (r : Rounding) : ∀ (fields : List (String × Json)) (depth : Nat),
    haveExact fields = true → ∀ f ∈ fields, Spells r (prettyAt depth f.2).toList f.2
  | [], _, _ => nofun
  | (k, j) :: fields, depth, h => by
    obtain ⟨hj, hfields⟩ := Bool.and_eq_true_iff.1 h
    exact List.forall_mem_cons.2
      ⟨spells_prettyAt r j depth hj, spells_prettyFields r fields depth hfields⟩

end

/-- An exact value is read back from its text. -/
theorem parse?_pretty (r : Rounding) {j : Json} (h : j.isExact = true) :
    parse? r j.pretty = some j :=
  (spells_prettyAt r j 0 h).parse?

/-- The line break behind a text that is shown does no harm. -/
theorem parse?_pretty_line (r : Rounding) {j : Json} (h : j.isExact = true) :
    parse? r (j.pretty ++ "\n") = some j := by
  refine Spells.parse? ?_
  rw [String.toList_append]
  exact (spells_prettyAt r j 0 h).append_blanks rfl cuts_nil

/-! ## Values on one line -/

/-- The items of an array are written one by one. -/
theorem renderItems_eq (items : List Json) : renderItems items = items.map render := by
  induction items with
  | nil => rfl
  | cons j items ih => rw [renderItems, ih, List.map_cons]

/-- The fields of an object are written one by one, each behind its key. -/
theorem renderFields_eq (fields : List (String × Json)) :
    renderFields fields = fields.map fun f => stringText f.1 ++ ":" ++ render f.2 := by
  induction fields with
  | nil => rfl
  | cons f fields ih => rw [renderFields, ih, List.map_cons]

mutual

/-- On one line, the text of an exact value spells it. -/
theorem spells_render (r : Rounding) : ∀ j : Json, j.isExact = true →
    Spells r (render j).toList j
  | .null, _ => spells_null
  | .bool b, _ => spells_bool b
  | .int _, h => spells_int h
  | .str s, _ => spells_str s
  | .arr [], _ => spells_nil
  | .obj [], _ => spells_empty
  | .arr (j :: items), h => by
    have hitems := spells_renderItems r (j :: items) h
    have hopen : "[".toList = ['['] := rfl
    have hcomma : ",".toList = [','] := rfl
    have hclose : "]".toList = [']'] := rfl
    -- there is no blank between the items
    rw [render, renderItems_eq, String.toList_append, String.toList_append,
      String.toList_intercalate, List.map_map, hopen, hcomma, hclose]
    exact spells_arr (cuts_single rfl) (cuts_single rfl) rfl (cuts_single rfl)
      (List.cons_ne_nil j items) hitems
  | .obj (f :: fields), h => by
    have hfields := spells_renderFields r (f :: fields) h
    have hcolon : ":".toList = [':'] := rfl
    have htext (f : String × Json) : (stringText f.1 ++ ":" ++ render f.2).toList
        = (stringText f.1).toList ++ [':'] ++ (render f.2).toList := by
      rw [String.toList_append, String.toList_append, hcolon]
    have hopen : "\x7b".toList = ['\x7b'] := rfl
    have hcomma : ",".toList = [','] := rfl
    have hclose : "\x7d".toList = ['\x7d'] := rfl
    rw [render, renderFields_eq, String.toList_append, String.toList_append,
      String.toList_intercalate, List.map_map, hopen, hcomma, hclose]
    simp only [Function.comp_def, htext]
    exact spells_obj (fun j => (render j).toList) (cuts_single rfl) (cuts_single rfl)
      (cuts_single rfl) rfl (cuts_single rfl) (List.cons_ne_nil f fields) hfields

/-- All items of an exact array are read back. -/
theorem spells_renderItems (r : Rounding) : ∀ items : List Json, areExact items = true →
    ∀ j ∈ items, Spells r (render j).toList j
  | [], _ => nofun
  | j :: items, h => by
    obtain ⟨hj, hitems⟩ := Bool.and_eq_true_iff.1 h
    exact List.forall_mem_cons.2 ⟨spells_render r j hj, spells_renderItems r items hitems⟩

/-- All fields of an exact object are read back. -/
theorem spells_renderFields (r : Rounding) : ∀ fields : List (String × Json),
    haveExact fields = true → ∀ f ∈ fields, Spells r (render f.2).toList f.2
  | [], _ => nofun
  | (k, j) :: fields, h => by
    obtain ⟨hj, hfields⟩ := Bool.and_eq_true_iff.1 h
    exact List.forall_mem_cons.2 ⟨spells_render r j hj, spells_renderFields r fields hfields⟩

end

/-- An exact value is read back from its text on one line. -/
theorem parse?_render (r : Rounding) {j : Json} (h : j.isExact = true) :
    parse? r j.render = some j :=
  (spells_render r j h).parse?

/-! ## Depth -/

mutual

/-- The number of containers inside each other. -/
def depth : Json → Nat
  | .arr items => depthOfItems items + 1
  | .obj fields => depthOfFields fields + 1
  | _ => 0

/-- The depth of the deepest item. -/
def depthOfItems : List Json → Nat
  | [] => 0
  | j :: rest => max (depth j) (depthOfItems rest)

/-- The depth of the deepest field. -/
def depthOfFields : List (String × Json) → Nat
  | [] => 0
  | (_, j) :: rest => max (depth j) (depthOfFields rest)

end

mutual

/-- Nothing is cut off a value that is not too deep. -/
theorem within_eq : ∀ {j : Json} {n : Nat}, j.depth ≤ n → j.within n = j
  | .null, n, _ | .bool _, n, _ | .int _, n, _ | .real _, n, _ | .str _, n, _
  | .unreadable, n, _ => by cases n <;> rfl
  | .arr items, 0, h | .obj fields, 0, h => absurd h (Nat.not_succ_le_zero _)
  | .arr items, n + 1, h => congrArg Json.arr (withinItems_eq (Nat.le_of_succ_le_succ h))
  | .obj fields, n + 1, h => congrArg Json.obj (withinFields_eq (Nat.le_of_succ_le_succ h))

/-- Items that are not too deep are left as they are. -/
theorem withinItems_eq : ∀ {items : List Json} {n : Nat}, depthOfItems items ≤ n →
    withinItems n items = items
  | [], _, _ => rfl
  | j :: items, n, h => by
    obtain ⟨hj, hitems⟩ := Nat.max_le.1 h
    rw [withinItems, within_eq hj, withinItems_eq hitems]

/-- Fields that are not too deep are left as they are. -/
theorem withinFields_eq : ∀ {fields : List (String × Json)} {n : Nat}, depthOfFields fields ≤ n →
    withinFields n fields = fields
  | [], _, _ => rfl
  | (k, j) :: fields, n, h => by
    obtain ⟨hj, hfields⟩ := Nat.max_le.1 h
    rw [withinFields, within_eq hj, withinFields_eq hfields]

end

end ArrayFusion.Json
