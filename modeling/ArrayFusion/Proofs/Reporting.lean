import ArrayFusion.Proofs.Accounted

/-!
# The report is right about bindings

If no transposition is taken out of kernels, no name of a combinator that was fused is bound by a
`let` of the new function, and every name of one that was kept is (`FunDef.fuse_report`).

Of a combinator that was fused the account of the function says that its names have the kernel of
another one.  One that was kept has a kernel of its own, and that is emitted if something was fused
into it, or else its `let` stays.
-/

namespace ArrayFusion

/-! ## What becomes of a choice -/

namespace Registry

variable {c : Config} {N H : Set Name} {l : Log} {e : Exp} {r : Registry} {o : List KernelId}
    {x : Name}

/-- The names of a combinator that was fused have the kernel of another one. -/
theorem Accounts.dropped (h : r.Accounts c N H l) (hl : (logNames l).Nodup) {s : Choice}
    {d : Decision} (hs : (s, d) ∈ l) (hfused : d.isFused = true) (ho : s.origin = .combinator)
    (hx : x ∈ s.names) : r.dropUnfused.Dropped x := by
  cases d with
  | kept => cases hfused
  | fused =>
    obtain ⟨-, hsettled⟩ := h.settles _ hs
    obtain ⟨id, K, hid, hK, hKfused⟩ := hsettled ho x hx
    have halive : r.isAlive id = true := Coherent.isAlive_eq_true.2 fun L hL => by
      cases hK.symm.trans hL
      exact hKfused
    refine ⟨id, K, Coherent.producerOf_dropUnfused.2 ⟨hid, halive⟩,
      Coherent.find?_dropUnfused.2 ⟨hK, halive⟩, fun hx' => ?_⟩
    -- the kernel stands for a choice that was kept
    obtain ⟨t, ht, hkept, -, hpattern⟩ := h.stands id K hK
    cases eq_of_mem_flatMap hl hs ht hx (show x ∈ t.1.pattern.names from hpattern ▸ hx')
    cases hkept

/-- The code binds the names of every choice that was kept. -/
theorem Accounts.exists_binds (h : r.Accounts c N r.dropUnfused.produced l)
    (hr : r.Coherent e.lets o) (hl : l.Of e) (hnames : (letNames e.lets).Nodup)
    (hne : ∀ s ∈ l, s.1.origin = .combinator → s.1.pattern ≠ [])
    (hN : ∀ x ∈ N, x ∉ r.dropUnfused.produced) (hpull : c.transposePull = false) {s : Choice}
    {d : Decision} (hs : (s, d) ∈ l) (hkept : d.isFused = false) (hx : x ∈ s.names) :
    ∃ m, r.dropUnfused.Binds (e.shown r.dropUnfused.produced) m ∧ x ∈ m.1.names := by
  -- a binding none of whose names is produced is still there
  have hstays : (∀ y ∈ s.names, r.dropUnfused.producerOf y = none) →
      ∃ m, r.dropUnfused.Binds (e.shown r.dropUnfused.produced) m ∧ x ∈ m.1.names := fun hnone => by
    obtain ⟨p, hbinds, hp⟩ := h.binds_of_stays hr hl hnames hne hN (hl.binding_mem _ hs) hnone
    cases hp hpull
    exact ⟨_, hbinds, hx⟩
  match d, h.settles _ hs with
  | .kept _ _ none _, hnone =>
    refine hstays fun y hy => Option.eq_none_iff_forall_ne_some.2 fun id hid => ?_
    cases (hnone y hy).symm.trans (Coherent.producerOf_dropUnfused.1 hid).1
  | .kept _ _ (some id) _, ⟨K, hK, hpattern⟩ =>
    have hpatterns : ∀ y ∈ s.names, y ∈ K.pattern.names := fun y hy => by
      rw [hpattern]
      exact hy
    -- a kernel of its own binds the names when it is emitted, and the old binding else
    cases halive : r.isAlive id with
    | true =>
      obtain ⟨hkernel, -⟩ := h.binds_of_kernel hr hl hnames hne
        (Coherent.find?_dropUnfused.2 ⟨hK, halive⟩)
      have hstraight := (h.regular id K hK).straight hpull
      exact ⟨_, hkernel _ List.mem_cons_self, hstraight.binds x (hpatterns x hx)⟩
    | false =>
      refine hstays fun y hy => Option.eq_none_iff_forall_ne_some.2 fun id' hid => ?_
      obtain ⟨hid, halive'⟩ := Coherent.producerOf_dropUnfused.1 hid
      cases (hr.patterns id K hK y (hpatterns y hy)).symm.trans hid
      exact Bool.noConfusion (halive.symm.trans halive')

end Registry

/-! ## What the report says -/

namespace FunDef.Accounted

variable {f : FunDef} {c : Config} {l : Log} {q : Registry} {body : Exp} {d : Decision} {x : Name}

/-- A decision of the log is about a choice, whose names it has. -/
theorem exists_choice (h : f.Accounted c l q) (hd : d ∈ l.map Prod.snd) :
    ∃ s, (s, d) ∈ l ∧ d.names = s.names := by
  obtain ⟨⟨s, d⟩, hs, rfl⟩ := List.mem_map.1 hd
  exact ⟨s, hs, h.names _ hs⟩

/-- A decision about the names of a combinator is the one about that combinator. -/
theorem exists_combinator (h : f.Accounted c l q) (hd : d ∈ l.map Prod.snd) {m : Pattern × Exp}
    (hm : m ∈ f.body.lets) (hsoac : m.2.isSoac = true) (hne : m.1 ≠ [])
    (hnames : d.names = m.1.names) : (⟨.combinator, m.1, m.2⟩, d) ∈ l := by
  obtain ⟨s, hs, hsnames⟩ := h.exists_choice hd
  obtain ⟨t, ht, hteq⟩ := h.log.combinators m hm hsoac
  obtain ⟨y, hy⟩ := List.exists_mem_of_ne_nil _ (mt List.map_eq_nil_iff.1 hne)
  have hys : y ∈ s.names := by
    rw [← hsnames, hnames]
    exact hy
  have hyt : y ∈ t.1.names := by
    rw [hteq]
    exact hy
  cases eq_of_mem_flatMap (h.log.nodup h.nodup) hs ht hys hyt
  exact hteq ▸ hs

/-- If something was fused, then the pass has succeeded. -/
theorem succeeded (h : f.Accounted c l q) (hd : d ∈ l.map Prod.snd) (hfused : d.isFused = true) :
    q.succeeded = true := by
  obtain ⟨s, hs, -⟩ := h.exists_choice hd
  obtain ⟨N, haccounts, -⟩ := h.accounts
  cases d with
  | kept => cases hfused
  | fused => exact (haccounts.settles _ hs).1

/-- The names that decisions are about are bound by a `let` of the function. -/
theorem mem_letNames (h : f.Accounted c l q) (hd : d ∈ l.map Prod.snd) (hx : x ∈ d.names) :
    x ∈ letNames f.body.lets := by
  obtain ⟨s, hs, hnames⟩ := h.exists_choice hd
  rw [hnames] at hx
  exact ArrayFusion.mem_letNames.2 ⟨_, h.log.binding_mem _ hs, hx⟩

/-- What was fused is not bound any more. -/
theorem not_mem_of_fused (h : f.Accounted c l q) (hpull : c.transposePull = false)
    (hbody : q.dropUnfused.emit f.body = .ok body) {s : Choice} (hs : (s, d) ∈ l)
    (ho : s.origin = .combinator) (hfused : d.isFused = true) (hx : x ∈ s.names) :
    x ∉ letNames body.lets := by
  obtain ⟨o, hcoherent⟩ := h.coherent
  obtain ⟨N, haccounts, hN⟩ := h.accounts
  intro hmem
  obtain ⟨m, hbinds, hx'⟩ :=
    (Registry.bindsJust_emit Registry.Coherent.all_isFused_dropUnfused hbody).mem_letNames.1 hmem
  refine hcoherent.dropUnfused.not_dropped_of_binds (fun id K hK m hm y hy => ?_) hbinds x hx'
    (haccounts.dropped (h.log.nodup h.nodup) hs hfused ho hx)
  obtain ⟨htransforms, -, houtputs⟩ :=
    (haccounts.regular id K (Registry.Coherent.find?_dropUnfused.1 hK).1).straight hpull
  rw [Kernel.heads, htransforms, List.map_nil, List.mem_singleton] at hm
  subst hm
  exact (houtputs y hy).imp_right fun hy => not_not.1 (hN y hy)

/-- What was kept is still bound. -/
theorem mem_of_kept (h : f.Accounted c l q) (hpull : c.transposePull = false)
    (hbody : q.dropUnfused.emit f.body = .ok body)
    (hne : ∀ m ∈ f.body.lets, m.2.isSoac = true → m.1 ≠ []) {s : Choice} (hs : (s, d) ∈ l)
    (hkept : d.isFused = false) (hx : x ∈ s.names) : x ∈ letNames body.lets := by
  obtain ⟨o, hcoherent⟩ := h.coherent
  obtain ⟨N, haccounts, hN⟩ := h.accounts
  refine (Registry.bindsJust_emit Registry.Coherent.all_isFused_dropUnfused hbody).mem_letNames.2
    (haccounts.exists_binds hcoherent h.log h.nodup (fun t ht ho => ?_) hN hpull hs hkept hx)
  exact hne _ (h.log.binding_mem t ht) (h.combinators t ht ho)

end FunDef.Accounted

/-- The report on a function with distinct binders and all uses in scope is right about bindings,
unless transpositions are taken out of kernels: no name of a combinator that was fused is bound by a
`let` of the new function, and every name that was kept is.  The tags have to suffice for the fresh
names. -/
theorem FunDef.fuse_report {c : Config} {f : FunDef} {r : FusedFun} (hbinders : f.binders.Nodup)
    (huses : f.body.free true ⊆ Pattern.nameSet f.params)
    (hne : ∀ l ∈ f.body.lets, l.2.isSoac = true → l.1 ≠ [])
    (htags : ∀ x ∈ f.params ++ f.body.idents, x.name.tag < Name.maxTag) (hroom : f.TagsSuffice c)
    (hpull : c.transposePull = false) (h : f.fuse c = .ok r) :
    (∀ l ∈ f.body.lets, l.2.isSoac = true → ∀ d ∈ r.report.decisions, d.isFused = true →
        d.names = l.1.names → ∀ x ∈ d.names, x ∉ letNames r.function.body.lets)
      ∧ ∀ d ∈ r.report.decisions, d.isFused = false →
        ∀ x ∈ d.names, x ∈ letNames r.function.body.lets := by
  rcases FunDef.decisions_of_fuse h with ⟨-, hnone⟩ | ⟨q, b, hrun, hsupply, hdecisions, hout⟩
  · rw [hnone]
    exact ⟨fun _ _ _ => nofun, nofun⟩
  obtain ⟨l, hl, haccounted⟩ := FunDef.accounted_of_analyse hbinders huses htags hrun
    (hsupply ▸ hroom)
  rw [hdecisions, hl]
  rcases hout with ⟨hsame, hfailed⟩ | ⟨body, hbody, hnew⟩
  · -- nothing was fused, and the function is as it was
    rw [hsame]
    refine ⟨fun m _ _ d hd hfused => ?_, fun d hd _ x hx => haccounted.mem_letNames hd hx⟩
    cases (haccounted.succeeded hd hfused).symm.trans hfailed
  · rw [hnew]
    refine ⟨fun m hm hsoac d hd hfused hnames x hx => ?_, fun d hd hkept x hx => ?_⟩
    · -- a fused combinator has the names of the one combinator it stands for
      rw [hnames] at hx
      exact haccounted.not_mem_of_fused hpull hbody
        (haccounted.exists_combinator hd hm hsoac (hne m hm hsoac) hnames) rfl hfused hx
    · obtain ⟨s, hs, hnames⟩ := haccounted.exists_choice hd
      rw [hnames] at hx
      exact haccounted.mem_of_kept hpull hbody hne hs hkept hx

theorem FunDef.fuse_report_negatedTwice : negatedTwice.binders.Nodup
    ∧ negatedTwice.body.free true ⊆ Pattern.nameSet negatedTwice.params
    ∧ (∀ l ∈ negatedTwice.body.lets, l.2.isSoac = true → l.1 ≠ [])
    ∧ (∀ x ∈ negatedTwice.params ++ negatedTwice.body.idents, x.name.tag < Name.maxTag)
    ∧ negatedTwice.TagsSuffice { Config.default with transposePull := false }
    ∧ ∃ r, negatedTwice.fuse { Config.default with transposePull := false } = .ok r
      ∧ .fused [⟨"ys", 1⟩] .map [⟨0⟩] ∈ r.report.decisions
      ∧ ⟨"ys", 1⟩ ∉ letNames r.function.body.lets
      ∧ .kept [⟨"zs", 3⟩] .map (some ⟨0⟩) .unfusable ∈ r.report.decisions
      ∧ ⟨"zs", 3⟩ ∈ letNames r.function.body.lets := by
  have hbinders : negatedTwice.binders.Nodup := by decide
  have huses : negatedTwice.body.free true ⊆ Pattern.nameSet negatedTwice.params := by
    simp [negatedTwice, Exp.bind, Exp.ofIdent, Exp.free, Exp.freeAll, Combinator.free, Lambda.free,
      Pattern.nameSet, Pattern.names]
  have hne : ∀ l ∈ negatedTwice.body.lets, l.2.isSoac = true → l.1 ≠ [] := by
    simp [negatedTwice, Exp.bind, Exp.ofIdent, Exp.lets, Exp.letsAll, Combinator.lets, Lambda.lets]
  have htags : ∀ x ∈ negatedTwice.params ++ negatedTwice.body.idents, x.name.tag < Name.maxTag := by
    decide
  have hroom : negatedTwice.TagsSuffice { Config.default with transposePull := false } := by
    decide +kernel
  -- the first combinator is fused, the second one keeps a kernel
  have hdecisions : (negatedTwice.fuse { Config.default with transposePull := false }).toOption.any
      (fun r => r.report.decisions.contains (.fused [⟨"ys", 1⟩] .map [⟨0⟩])
        && r.report.decisions.contains (.kept [⟨"zs", 3⟩] .map (some ⟨0⟩) .unfusable)) = true := by
    decide +kernel
  have hys : ∃ l ∈ negatedTwice.body.lets, l.2.isSoac = true ∧ l.1.names = [⟨"ys", 1⟩] :=
    ⟨_, List.mem_cons_self, rfl, rfl⟩
  obtain ⟨r, h, hdecisions⟩ := Except.exists_of_any hdecisions
  obtain ⟨hfused, hkept⟩ := Bool.and_eq_true_iff.1 hdecisions
  rw [List.contains_iff_mem] at hfused hkept
  obtain ⟨hgone, hbound⟩ := FunDef.fuse_report hbinders huses hne htags hroom rfl h
  obtain ⟨l, hl, hsoac, hnames⟩ := hys
  exact ⟨hbinders, huses, hne, htags, hroom, r, h, hfused,
    hgone l hl hsoac _ hfused rfl hnames.symm _ List.mem_cons_self, hkept,
    hbound _ hkept rfl _ List.mem_cons_self⟩

/-- Two filters, of which the second one reads one of three outputs.  One tag is left behind those
of the function. -/
def positiveOfRising : FunDef :=
  let number (base : String) (tag : Nat) : Ident := ⟨⟨base, tag⟩, .int⟩
  let array (base : String) (tag : Nat) : Ident := ⟨⟨base, tag⟩, .array .int⟩
  let less (a b : Exp) : Exp := .binary .less a b .bool .dummy
  let rising : Lambda := ⟨[number "a" 5, number "b" 6, number "d" 7],
    less (.ofIdent (number "a" 5)) (.ofIdent (number "b" 6)), [.bool]⟩
  let positive : Lambda := ⟨[number "c" 4294967294],
    less (.lit (.int 0) .dummy) (.ofIdent (number "c" 4294967294)), [.bool]⟩
  ⟨"f", [array "xs" 0, array "bs" 1, array "ds" 2], .array .int,
    .bind [array "zs" 3, array "ps" 4, array "ys" 0]
      (.soac (.filter rising) [.ofIdent (array "xs" 0), .ofIdent (array "bs" 1),
        .ofIdent (array "ds" 2)] [] .dummy)
      (.bind [array "ws" 8] (.soac (.filter positive) [.ofIdent (array "zs" 3)] [] .dummy)
        (.ofIdent (array "ws" 8))), .dummy⟩

/-- The second output that is not read gets the first tag of all, which it has had before. -/
theorem FunDef.fuse_rebinds_output : positiveOfRising.binders.Nodup
    ∧ positiveOfRising.body.free true ⊆ Pattern.nameSet positiveOfRising.params
    ∧ (∀ l ∈ positiveOfRising.body.lets, l.2.isSoac = true → l.1 ≠ [])
    ∧ (∀ x ∈ positiveOfRising.params ++ positiveOfRising.body.idents, x.name.tag < Name.maxTag)
    ∧ ∃ c : Config, c.transposePull = false ∧ ∃ r, positiveOfRising.fuse c = .ok r
      ∧ ∃ l ∈ positiveOfRising.body.lets, l.2.isSoac = true
        ∧ ∃ d ∈ r.report.decisions, d.isFused = true ∧ d.names = l.1.names
          ∧ ⟨"ys", 0⟩ ∈ d.names ∧ ⟨"ys", 0⟩ ∈ letNames r.function.body.lets := by
  have hbinders : positiveOfRising.binders.Nodup := by decide
  have huses : positiveOfRising.body.free true ⊆ Pattern.nameSet positiveOfRising.params := by
    simp +contextual [positiveOfRising, Exp.bind, Exp.ofIdent, Exp.free, Exp.freeAll,
      Combinator.free, Lambda.free, Pattern.nameSet, Pattern.names, Set.subset_def, or_imp]
  have hne : ∀ l ∈ positiveOfRising.body.lets, l.2.isSoac = true → l.1 ≠ [] := by
    simp [positiveOfRising, Exp.bind, Exp.ofIdent, Exp.lets, Exp.letsAll, Combinator.lets,
      Lambda.lets]
  -- the name that the supply hands out again is one of a fused combinator
  have hrun : (positiveOfRising.fuse { Config.default with transposePull := false }).toOption.any
        (fun r =>
      .fused [⟨"zs", 3⟩, ⟨"ps", 4⟩, ⟨"ys", 0⟩] .filter [⟨0⟩] ∈ r.report.decisions
        ∧ ⟨"ys", 0⟩ ∈ letNames r.function.body.lets) = true := by
    decide +kernel
  obtain ⟨r, h, hrun⟩ := Except.exists_of_any hrun
  obtain ⟨hfused, hbound⟩ := of_decide_eq_true hrun
  exact ⟨hbinders, huses, hne, by decide, { Config.default with transposePull := false }, rfl, r, h, _,
    List.mem_cons_self, rfl, _, hfused, rfl, rfl, by decide, hbound⟩

end ArrayFusion
