import ArrayFusion.Proofs.Accounted

/-!
# No certificate is lost

Each certificate of a combinator in a function is the certificate of some combinator in the fused
function, whatever the configuration (`FunDef.fuse_certificates`).

If a kernel has the names of a combinator, then it has the certificates too, and it is emitted.  If
none has, then the `let` stays, in the code or in a kernel.  Only a nest is rebuilt when a
transposition is taken out of its kernel, and then the inner map keeps its certificates but not its
names.
-/

namespace ArrayFusion

/-- The certificates of a `let` are bound again: those of a kernel that has the names, or those of
the `let` that stays. -/
theorem Registry.Accounts.binds_certs {c : Config} {N : Set Name} {l : Log} {e : Exp} {r : Registry}
    {o : List KernelId} (h : r.Accounts c N r.dropUnfused.produced l) (hr : r.Coherent e.lets o)
    (hl : l.Of e) (hnames : (letNames e.lets).Nodup)
    (hne : ∀ s ∈ l, s.1.origin = .combinator → s.1.pattern ≠ [])
    (hN : ∀ x ∈ N, x ∉ r.dropUnfused.produced) {m : Pattern × Exp} (hm : m ∈ e.lets) :
    ∃ k, r.dropUnfused.Binds (e.shown r.dropUnfused.produced) k
      ∧ ∀ x ∈ m.2.certs.names, x ∈ k.2.names := by
  by_cases hproduced : ∃ y ∈ m.1.names, y ∈ r.dropUnfused.produced
  · obtain ⟨y, hy, hproduced⟩ := hproduced
    obtain ⟨id, K, hK, hholds⟩ := h.exists_holds hl hnames hm hy hproduced
    obtain ⟨hkernel, -⟩ := h.binds_of_kernel hr hl hnames hne hK
    exact ⟨_, hkernel _ List.mem_cons_self, hholds.certs⟩
  · obtain ⟨p, hbinds, -⟩ := h.binds_of_stays hr hl hnames hne hN hm fun y hy =>
      not_not.1 fun hne => hproduced ⟨y, hy, hne⟩
    exact ⟨_, hbinds, fun _ hx => hx⟩

/-- In a function with distinct binders, all uses in scope and no combinator that binds nothing,
each certificate of a combinator, nested ones included, is the certificate of a combinator in the
fused function.  The tags have to suffice for the fresh names. -/
theorem FunDef.fuse_certificates {c : Config} {f : FunDef} {r : FusedFun}
    (hbinders : f.binders.Nodup) (huses : f.body.free true ⊆ Pattern.nameSet f.params)
    (hne : ∀ l ∈ f.body.lets, l.2.isSoac = true → l.1 ≠ [])
    (htags : ∀ x ∈ f.params ++ f.body.idents, x.name.tag < Name.maxTag) (hroom : f.TagsSuffice c)
    (h : f.fuse c = .ok r) :
    ∀ x ∈ f.body.certificates.names, x ∈ r.function.body.certificates.names := by
  intro x hx
  rcases FunDef.fuse_eq_ok h with hsame | ⟨q, b, body, hrun, hsupply, hbody, hnew⟩
  · rwa [hsame]
  rw [hnew]
  obtain ⟨l, -, haccounted⟩ := FunDef.accounted_of_analyse hbinders huses htags hrun
    (hsupply ▸ hroom)
  obtain ⟨o, hcoherent⟩ := haccounted.coherent
  obtain ⟨N, haccounts, hN⟩ := haccounted.accounts
  -- the certificate is that of a `let`, and what the account says of it is bound in the new body
  obtain ⟨cert, hcert, rfl⟩ := List.mem_map.1 hx
  obtain ⟨m, hm, hmcert⟩ := Exp.exists_let_of_certificate hrun cert hcert
  obtain ⟨k, hbinds, hcerts⟩ := haccounts.binds_certs hcoherent haccounted.log haccounted.nodup
    (fun s hs ho => hne _ (haccounted.log.binding_mem s hs) (haccounted.combinators s hs ho)) hN hm
  obtain ⟨m', hm', rfl⟩ := List.mem_map.1
    ((Registry.bindsJust_emit Registry.Coherent.all_isFused_dropUnfused hbody k).2 hbinds)
  obtain ⟨cert', hcert', hname⟩ := List.mem_map.1 (hcerts _ (List.mem_map_of_mem hmcert))
  exact List.mem_map.2 ⟨cert', Exp.certs_subset_of_lets hm' hcert', hname⟩

/-- A map over the columns of an array that a map computes.  It negates each number, by a map in its
lambda, and each of the maps has a certificate. -/
def negatedColumns : FunDef :=
  let number (base : String) (tag : Nat) : Ident := ⟨⟨base, tag⟩, .int⟩
  let row (base : String) (tag : Nat) : Ident := ⟨⟨base, tag⟩, .array .int⟩
  let matrix (base : String) (tag : Nat) : Ident := ⟨⟨base, tag⟩, .array (.array .int)⟩
  let cert (tag : Nat) : Ident := ⟨⟨"c", tag⟩, .bool⟩
  let negate : Lambda := ⟨[number "x" 9], .unary .negate (.ofIdent (number "x" 9)) .dummy, [.int]⟩
  let column : Lambda := ⟨[row "col" 7],
    .bind [row "neg" 8] (.soac (.map negate) [.ofIdent (row "col" 7)] [cert 3] .dummy)
      (.ofIdent (row "neg" 8)), [.array .int]⟩
  ⟨"f", [matrix "xs" 0, cert 1, cert 2, cert 3], .array (.array .int),
    .bind [matrix "ys" 4]
      (.soac (.map ⟨[row "r" 5], .ofIdent (row "r" 5), [.array .int]⟩) [.ofIdent (matrix "xs" 0)]
        [cert 1] .dummy)
      (.bind [matrix "zs" 6]
        (.soac (.map column) [.unary .transpose (.ofIdent (matrix "ys" 4)) .dummy] [cert 2] .dummy)
        (.ofIdent (matrix "zs" 6))), .dummy⟩

theorem FunDef.fuse_certificates_negatedColumns : negatedColumns.binders.Nodup
    ∧ negatedColumns.body.free true ⊆ Pattern.nameSet negatedColumns.params
    ∧ (∀ l ∈ negatedColumns.body.lets, l.2.isSoac = true → l.1 ≠ [])
    ∧ (∀ x ∈ negatedColumns.params ++ negatedColumns.body.idents, x.name.tag < Name.maxTag)
    ∧ negatedColumns.TagsSuffice .default ∧ ∃ r, negatedColumns.fuse Config.default = .ok r
    ∧ r.changed = true
      ∧ ∀ n ∈ [1, 2, 3], ⟨"c", n⟩ ∈ r.function.body.certificates.names := by
  have hbinders : negatedColumns.binders.Nodup := by decide
  have huses : negatedColumns.body.free true ⊆ Pattern.nameSet negatedColumns.params := by
    simp [negatedColumns, Exp.bind, Exp.ofIdent, Exp.free, Exp.freeAll, Combinator.free,
      Lambda.free, Pattern.nameSet, Pattern.names, Set.subset_def]
  have hne : ∀ l ∈ negatedColumns.body.lets, l.2.isSoac = true → l.1 ≠ [] := by
    simp [negatedColumns, Exp.bind, Exp.ofIdent, Exp.lets, Exp.letsAll, Combinator.lets,
      Lambda.lets]
  have htags : ∀ x ∈ negatedColumns.params ++ negatedColumns.body.idents,
      x.name.tag < Name.maxTag := by
    decide
  have hroom : negatedColumns.TagsSuffice .default := by decide +kernel
  have hchanged : (negatedColumns.fuse Config.default).toOption.any (·.changed) = true := by
    decide +kernel
  -- the certificates are those of the three combinators, all of which end in one kernel
  have hcerts : ∀ n ∈ [1, 2, 3], ⟨"c", n⟩ ∈ negatedColumns.body.certificates.names := by decide
  obtain ⟨r, h, hchanged⟩ := Except.exists_of_any hchanged
  exact ⟨hbinders, huses, hne, htags, hroom, r, h, hchanged, fun n hn =>
    FunDef.fuse_certificates hbinders huses hne htags hroom h _ (hcerts n hn)⟩

/-- The sum of some numbers that a filter keeps, whose predicate has a map with a certificate.  One
tag is left behind those of the function. -/
def sumOfChecked : FunDef :=
  let number (base : String) (tag : Nat) : Ident := ⟨⟨base, tag⟩, .int⟩
  let array (base : String) (tag : Nat) : Ident := ⟨⟨base, tag⟩, .array .int⟩
  let cert : Ident := ⟨⟨"c", 3⟩, .bool⟩
  let negate : Lambda := ⟨[number "b" 6], .unary .negate (.ofIdent (number "b" 6)) .dummy, [.int]⟩
  let predicate : Lambda := ⟨[number "a" 4],
    .bind [array "q" 5] (.soac (.map negate) [.ofIdent (array "bs" 2)] [cert] .dummy)
      (.binary .less (.ofIdent (number "a" 4)) (.unary .size (.ofIdent (array "q" 5)) .dummy) .bool
        .dummy),
    [.bool]⟩
  let step : Lambda := ⟨[number "acc" 8, number "y" 4294967294],
    .binary .plus (.ofIdent (number "acc" 8)) (.ofIdent (number "y" 4294967294)) .int .dummy,
    [.int]⟩
  ⟨"f", [array "xs" 0, array "bs" 2, cert], .int,
    .bind [array "check" 1] (.soac (.filter predicate) [.ofIdent (array "xs" 0)] [] .dummy)
      (.bind [number "r" 7]
        (.soac (.reduce step [.lit (.int 0) .dummy]) [.ofIdent (array "check" 1)] [] .dummy)
        (.ofIdent (number "r" 7))), .dummy⟩

/-- The guard gets the name of the array that was fused away, and the predicate goes with the `let`
of it. -/
theorem FunDef.fuse_loses_certificate : sumOfChecked.binders.Nodup
    ∧ sumOfChecked.body.free true ⊆ Pattern.nameSet sumOfChecked.params
    ∧ (∀ l ∈ sumOfChecked.body.lets, l.2.isSoac = true → l.1 ≠ [])
    ∧ (∀ x ∈ sumOfChecked.params ++ sumOfChecked.body.idents, x.name.tag < Name.maxTag)
    ∧ ⟨"c", 3⟩ ∈ sumOfChecked.body.certificates.names
    ∧ ∃ r, sumOfChecked.fuse Config.default = .ok r
      ∧ ⟨"c", 3⟩ ∉ r.function.body.certificates.names := by
  have hbinders : sumOfChecked.binders.Nodup := by decide
  have huses : sumOfChecked.body.free true ⊆ Pattern.nameSet sumOfChecked.params := by
    simp +contextual [sumOfChecked, Exp.bind, Exp.ofIdent, Exp.free, Exp.freeAll, Combinator.free,
      Lambda.free, Pattern.nameSet, Pattern.names, Set.subset_def, or_imp]
  have hne : ∀ l ∈ sumOfChecked.body.lets, l.2.isSoac = true → l.1 ≠ [] := by
    simp [sumOfChecked, Exp.bind, Exp.ofIdent, Exp.lets, Exp.letsAll, Combinator.lets, Lambda.lets]
  -- the tags run out, and a fresh name is that of the array with the certificate
  have hlost : (sumOfChecked.fuse Config.default).toOption.any
      (fun r => ⟨"c", 3⟩ ∉ r.function.body.certificates.names) = true := by
    decide +kernel
  obtain ⟨r, h, hlost⟩ := Except.exists_of_any hlost
  exact ⟨hbinders, huses, hne, by decide, by decide, r, h, of_decide_eq_true hlost⟩

end ArrayFusion
