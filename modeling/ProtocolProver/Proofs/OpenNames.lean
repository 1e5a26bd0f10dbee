import ProtocolProver.Proofs.OpenVariables
import ProtocolProver.Proofs.SolvedSystems
import ProtocolProver.Proofs.Witness

/-!
# Names of open variables

The trace of a system has names for the variables that the search left open. No model can write these
names (`Var.exists_realization`). Two variables become one name only if one is a message variable and the
other a public one of the same name and index, and that happens only if an equation, an existential
quantifier or the universal variables that normalization may drop mix such variables
(`Model.DrawsUnmixed`).
-/

namespace ProtocolProver

/-! ## Names that models cannot write -/

/-- Terms without a name. -/
def Shape.avoiding (n : Name) : Shape := ⟨fun _ => True, (· ≠ n), fun _ _ => True⟩

/-- The name stands nowhere in the rules, the restrictions and the lemmas. -/
structure Model.Avoids (n : Name) (m : Model) : Prop where
  terms : m.Has (.avoiding n)
  restrictions : ∀ r ∈ m.restrictions, r.formula.Has (.avoiding n)
  lemmas : ∀ l ∈ m.lemmas, l.formula.Has (.avoiding n)

/-- The name of an open variable cannot be written. -/
theorem Var.exists_realization (v : Var) :
    ∃ n, v.realization = .name n ∧ ∀ sig, Surface.Writes (.avoiding n) sig := by
  have hwrites : ∀ n : Name, (∀ name, Name.isReserved name = false → .pub name ≠ n) → ∀ sig,
      Surface.Writes (.avoiding n) sig := fun _ hn _ => ⟨fun _ _ => trivial, hn, fun _ => trivial⟩
  unfold realization
  split
  · exact ⟨_, rfl, hwrites _ nofun⟩
  · refine ⟨_, rfl, hwrites _ fun name hname he => ?_⟩
    cases he
    simp [Name.isReserved, Name.generatedMark] at hname

/-! ## Compiled models -/

theorem Reduction.covered_of_validate {r : Reduction} (h : r.validate = .ok ()) :
    ∀ x ∈ r.rhs.occurrences, x ∈ r.lhs.occurrences := by
  unfold Reduction.validate at h
  simp only at h
  split at h
  · obtain ⟨_, hthrow, -⟩ := bind_eq_ok h
    cases hthrow
  · split at h
    · obtain ⟨_, hthrow, -⟩ := bind_eq_ok h
      cases hthrow
    · rename_i hfind
      intro x hx
      have hnone := List.find?_eq_none.1 (Option.eq_none_iff_forall_ne_some.2 hfind) x
        (List.mem_eraseDups.2 hx)
      simp only [Bool.not_eq_true, Bool.not_eq_false', List.contains_iff_mem] at hnone
      exact List.mem_eraseDups.1 hnone

theorem Theory.covered_of_ofRules {sig : Signature} {rules : List Reduction} {algebras : Algebras}
    {T : Theory} (h : Theory.ofRules sig rules algebras = .ok T) :
    ∀ r ∈ T.rules, ∀ x ∈ r.rhs.occurrences, x ∈ r.lhs.occurrences := by
  obtain ⟨⟨⟩, hvalid, -⟩ := bind_eq_ok h
  obtain rfl := ofRules_eq_ok h
  exact List.forall_mem_append.2
    ⟨by decide, fun r hr => Reduction.covered_of_validate (of_forM_eq_ok hvalid r hr)⟩

namespace Surface

variable {P : Shape} {sig : Signature}

theorem Lemma.has_compile (hP : Writes P sig) {l : Lemma} {l' : ProtocolProver.Lemma}
    (h : l.compile sig = .ok l') : l'.formula.Has P := by
  obtain ⟨F, hF, h⟩ := bind_eq_ok h
  obtain ⟨-, hformula, -⟩ := ProtocolProver.Lemma.build_target (mapError_eq_ok h)
  exact hformula ▸ (Formula.of_compile hP hF).1

theorem Lemma.scoped_compile {l : Lemma} {l' : ProtocolProver.Lemma} (h : l.compile sig = .ok l') :
    l'.target.Scoped .indexed .closed := by
  obtain ⟨F, hF, h⟩ := bind_eq_ok h
  obtain ⟨-, -, htarget⟩ := ProtocolProver.Lemma.build_target (mapError_eq_ok h)
  have hbinders : ∀ b ∈ F.binders, Fragment.indexed.binder b := Formula.idx_binders hF
  split at htarget
  · exact (ProtocolProver.Formula.scoped_toNnf hbinders (fun _ _ => trivial) htarget).2
  · exact (ProtocolProver.Formula.scoped_toNnf (f := .neg F) hbinders (fun _ _ => trivial) htarget).2

theorem Restriction.has_compile_formula (hP : Writes P sig) {r : Restriction}
    {r' : ProtocolProver.Restriction} (h : r.compile sig = .ok r') : r'.formula.Has P := by
  obtain ⟨F, hF, h⟩ := bind_eq_ok h
  have h := mapError_eq_ok h
  unfold ProtocolProver.Restriction.build at h
  split at h <;> cases h
  exact (Formula.of_compile hP (mapError_eq_ok hF)).1

namespace Compiles

variable {src : Model} {pack : Pack} {es : List Reduction} {rs : List ProtocolProver.Rule}
  {m : ProtocolProver.Model} (h : Compiles src pack sig es rs m)

include h

theorem avoids {n : Name} (hn : Writes (.avoiding n) sig) : m.Avoids n where
  terms := h.has hn
  restrictions r hr := by
    obtain ⟨r₀, -, hc⟩ := h.restrictions r hr
    exact Restriction.has_compile_formula hn hc
  lemmas l hl := by
    obtain ⟨l₀, -, hc⟩ := h.lemmas l hl
    exact Lemma.has_compile hn hc

theorem idx_vars {r : ProtocolProver.Rule} (hr : r ∈ m.rules) : ∀ x ∈ r.vars, x.idx = 0 := by
  have hidx : Writes ⟨fun x => x.idx = 0, fun _ => True, fun _ _ => True⟩ sig :=
    ⟨fun _ hx => hx, fun _ _ => trivial, fun _ => trivial⟩
  have hhas := (h.has hidx).rules r hr
  intro x hx
  rcases h.mem_rules hr with hr | rfl
  · obtain ⟨r₀, -, hc⟩ := h.compiled r hr
    rcases Rule.compile_vars hc hx with ⟨f, hf, t, ht, hx⟩ | ⟨f, hf, hx⟩
    · exact (hhas.facts hf t ht).var_of_mem hx
    · obtain ⟨t, ht, hx⟩ := Nnf.exists_mem_terms hx
      exact (hhas.restrict f hf t ht).var_of_mem hx
  · revert x
    decide

theorem unmixed_vars {r : ProtocolProver.Rule} (hr : r ∈ m.rules) : Unmixed r.vars := by
  have hidx := h.idx_vars hr
  rcases h.mem_rules hr with hr | rfl
  · intro v hv w hw hname hmsg hpub
    have hsort := (h.valid r hr).sorts v hv w hw hname ((hidx v hv).trans (hidx w hw).symm)
    rw [hmsg, hpub] at hsort
    cases hsort
  · decide

end Compiles

end Surface

/-! ## Searches -/

namespace Model

variable (m : Model) (target : Nnf)

/-- The formulas that a search for the target takes apart. -/
def searched : List Nnf := target :: m.restrictions.map Restriction.nnf ++ m.rules.filterMap Rule.restrict

/-- The universal variables that normalization may drop from their guard. -/
def looseVars : List Var := (m.searched target).flatMap (Nnf.loose m.theory)

/-- No message variable is drawn together with a public one of the same name: not for an equation, nor
for an existential quantifier, and no such variables may both stay free. -/
structure DrawsUnmixed : Prop where
  equations : ∀ r ∈ m.theory.rules, Unmixed r.lhs.occurrences
  blocks : ∀ f ∈ m.searched target, ∀ bs ∈ f.blocks, Unmixed (bs.filterMap Binder.var?)
  loose : Unmixed (m.looseVars target)

variable {m target}

theorem DrawsUnmixed.apart (h : m.DrawsUnmixed target) {s : Scope} {f : Nnf}
    (hf : f ∈ m.searched target) (hs : f.Scoped .indexed s) :
    f.Apart m.theory {x | x ∈ m.looseVars target ∧ x.idx = 0} {x | s.var x} :=
  hs.apart (h.blocks f hf) fun _ hv hidx => ⟨List.mem_flatMap.2 ⟨f, hf, hv⟩, hidx⟩

end Model

namespace Surface.Compiles

variable {src : Model} {pack : Pack} {sig : Signature} {es : List Reduction}
  {rs : List ProtocolProver.Rule} {m : ProtocolProver.Model} (h : Compiles src pack sig es rs m)
  {target : Nnf} (hm : m.DrawsUnmixed target)

include h hm

theorem apart : m.Apart {x | x ∈ m.looseVars target ∧ x.idx = 0} where
  theory := ⟨Theory.covered_of_ofRules h.accepted, hm.equations⟩
  rules r hr := by
    refine ⟨h.unmixed_vars hr, fun f hf t ht => Term.has_over.2 (h.covers hr f hf t ht), fun f hf => ?_⟩
    have hmem : f ∈ m.searched target :=
      List.mem_append_right _ (List.mem_filterMap.2 ⟨r, hr, hf⟩)
    rcases h.mem_rules hr with hr | rfl
    · obtain ⟨r₀, -, hc⟩ := h.compiled r hr
      obtain ⟨hscope, hfree⟩ := Rule.compile_condition hc hf
      exact (hm.apart hmem hscope).of_free hfree
    · cases hf
  restrictions r hr := by
    obtain ⟨r₀, -, hc⟩ := h.restrictions r hr
    have hmem : r.nnf ∈ m.searched target :=
      List.mem_append_left _ (List.mem_cons_of_mem _ (List.mem_map_of_mem hr))
    exact (hm.apart hmem (Restriction.scoped_compile hc)).mono fun _ hx => hx

end Surface.Compiles

/-- The variables that a search leaves open become names that the model does not have. Two become one
name only if they are a message variable and a public one of the same name and index, and they become
different names if no such variables are drawn together. -/
theorem grounding_names_open_variables {src : Surface.Model} {flags : SortedSet String}
    {c : Surface.Compiled} (hc : src.compile flags = .ok c) {l : Lemma} (hl : l ∈ c.model.lemmas)
    {S : System} (hS : System.Reachable c.model l.target S) :
    (∀ x ∈ S.nodeVars, ∃ n, S.grounding.get? x = some (.name n) ∧ c.model.Avoids n) ∧
    (∀ x ∈ S.nodeVars, ∀ y ∈ S.nodeVars, S.grounding.get? x = S.grounding.get? y → x = y ∨
      x.name = y.name ∧ x.idx = y.idx ∧ (x.sort = .msg ∧ y.sort = .pub ∨ x.sort = .pub ∧ y.sort = .msg)) ∧
    (c.model.DrawsUnmixed l.target → Set.InjOn S.grounding.get? {x | x ∈ S.nodeVars}) := by
  obtain ⟨pack, sig, es, rs, hcompiles⟩ := Surface.Model.compiles hc
  have hget : ∀ x ∈ S.nodeVars, S.grounding.get? x = some x.realization := fun x hx => by
    rw [System.get?_grounding, if_pos hx]
  have hrealization : ∀ x ∈ S.nodeVars, ∀ y ∈ S.nodeVars, S.grounding.get? x = S.grounding.get? y →
      x.realization = y.realization := fun x hx y hy he => by
    rw [hget x hx, hget y hy] at he
    exact Option.some.inj he
  refine ⟨fun x hx => ?_, fun x hx y hy he => ?_, fun hm x hx y hy he => ?_⟩
  · obtain ⟨n, hn, hwrites⟩ := x.exists_realization
    exact ⟨n, by rw [hget x hx, hn], hcompiles.avoids (hwrites sig)⟩
  · exact Var.eq_or_mixed (hrealization x hx y hy he)
  · obtain ⟨l₀, -, hcl⟩ := hcompiles.lemmas l hl
    have htarget := hm.apart (List.mem_append_left _ (List.mem_cons_self ..))
      (Surface.Lemma.scoped_compile hcl)
    obtain ⟨A, hA⟩ := hS.apart (fun _ hx => hx.2) (fun x hx y hy => hm.loose.eq_of_realization hx.1 hy.1)
      (hcompiles.apart hm) (htarget.mono fun _ hx => hx)
    exact hA.stock.apart (hA.mem_of_nodeVars hx) (hA.mem_of_nodeVars hy) (hrealization x hx y hy he)

/-- A rule opens what it reads, and a restriction keeps what it read apart from its reader. -/
def sealSource : Surface.Model where
  name := "seal"
  functions := [⟨"seal", 2, false⟩, ⟨"unseal", 1, false⟩]
  equations := [⟨"unseal", ⟨"unseal", [⟨"seal", [⟨"x", []⟩, ⟨"$a", []⟩]⟩]⟩, ⟨"x", []⟩⟩]
  rules := [{ name := "Read", premises := [⟨"In", false, [⟨"y", []⟩]⟩],
              actions := [⟨"Read", false, [⟨"unseal", [⟨"y", []⟩]⟩, ⟨"$a", []⟩]⟩] }]
  restrictions := [⟨"apart", .all ["a", "$c", "#i"] (.imp
    (.action ⟨"Read", false, [⟨"a", []⟩, ⟨"$c", []⟩]⟩ "i") (.neg (.eq ⟨"a", []⟩ ⟨"$c", []⟩))), none⟩]
  lemmas := [⟨"read", .existsTrace, .ex ["a", "$b", "#i"]
    (.action ⟨"Read", false, [⟨"pair", [⟨"a", []⟩, ⟨"'m'", []⟩]⟩, ⟨"$b", []⟩]⟩ "i"), none, none⟩]

/-- Somebody reads a pair. -/
def sealLemma : Lemma :=
  let bs : List Binder := [.msg (.msg "a"), .msg (.pub "b"), .time (.ofName "i")]
  let read : Atom := .action (.linear "Read"
    [.app .pair [.var (.msg "a"), .pubName "m"], .var (.pub "b")]) (.ofName "i")
  ⟨"read", .existsTrace, .ex bs (.atom read), none, .ex bs (.atom read)⟩

def sealModel : Model where
  theory := ⟨⟨Signature.builtin.symbols ++ [⟨"seal", 2, .pub⟩, ⟨"unseal", 1, .pub⟩]⟩, {},
    Reduction.projections ++ [⟨"unseal", .app ⟨11⟩ [.app ⟨10⟩ [.var (.msg "x"), .var (.pub "a")]],
      .var (.msg "x")⟩]⟩
  rules := [⟨"Read", .protocol, [.linear Pred.input [.var (.msg "y")]],
    [.linear "Read" [.app ⟨11⟩ [.var (.msg "y")], .var (.pub "a")]], [], none,
    [.msg "y", .pub "a"]⟩, .learn]
  restrictions :=
    let bs : List Binder := [.msg (.msg "a"), .msg (.pub "c"), .time (.ofName "i")]
    let read : Atom := .action (.linear "Read" [.var (.msg "a"), .var (.pub "c")]) (.ofName "i")
    [⟨"apart", .all bs (.imp (.atom read) (.neg (.atom (.eq (.var (.msg "a")) (.var (.pub "c")))))),
      .guarded bs [read] (.neq (.var (.msg "a")) (.var (.pub "c")))⟩]
  lemmas := [sealLemma]
  tactics := []
  learnRule := 1

/-- The quantifier, the rule and the equation each bring a variable of one name. -/
theorem grounding_names_open_variables_seal :
    let S := (System.advance sealModel)^[4] (System.start sealModel sealLemma.target)
    sealSource.compile ∅ = .ok ⟨sealModel, []⟩ ∧ sealLemma ∈ sealModel.lemmas ∧
      System.Reachable sealModel sealLemma.target S ∧ sealModel.DrawsUnmixed sealLemma.target ∧
      S.nodeVars.eraseDups = [⟨"a", 1, .msg⟩, ⟨"a", 3, .pub⟩, ⟨"a", 2, .pub⟩] ∧
      (∀ x ∈ S.nodeVars, ∃ n, S.grounding.get? x = some (.name n) ∧ sealModel.Avoids n) ∧
      Set.InjOn S.grounding.get? {x | x ∈ S.nodeVars} := by
  intro S
  have hcompile : sealSource.compile ∅ = .ok ⟨sealModel, []⟩ := rfl
  have hl : sealLemma ∈ sealModel.lemmas := List.mem_singleton_self _
  have hS : System.Reachable sealModel sealLemma.target S :=
    System.reachable_advance (by decide +kernel) 4 (by decide +kernel)
  have hm : sealModel.DrawsUnmixed sealLemma.target := ⟨by decide, by decide, by decide⟩
  have hvars : S.nodeVars.eraseDups = [⟨"a", 1, .msg⟩, ⟨"a", 3, .pub⟩, ⟨"a", 2, .pub⟩] := by
    decide +kernel
  obtain ⟨hnames, -, hinj⟩ := grounding_names_open_variables hcompile hl hS
  exact ⟨hcompile, hl, hS, hm, hvars, hnames, hinj hm⟩

/-! ## Mixed variables -/

/-- A search for a lemma reaches a system in which two variables become one name, although the model and
its target have the property. -/
def Surface.Model.Confuses (src : Surface.Model) (Q : ProtocolProver.Model → Nnf → Prop) : Prop :=
  ∃ c l S, src.compile ∅ = .ok c ∧ l ∈ c.model.lemmas ∧ Q c.model l.target ∧
    System.Reachable c.model l.target S ∧ ¬Set.InjOn S.grounding.get? {x | x ∈ S.nodeVars}

/-- A rule reads two messages. The lemma asks for a message and a public value that share a name. -/
def coupleSource : Surface.Model where
  name := "couple"
  rules := [{ name := "Read", premises := [⟨"In", false, [⟨"y", []⟩]⟩, ⟨"In", false, [⟨"z", []⟩]⟩],
              actions := [⟨"Read", false, [⟨"y", []⟩, ⟨"z", []⟩]⟩] }]
  lemmas := [⟨"two", .existsTrace, .ex ["x", "$x", "#i"]
    (.conj [.action ⟨"Read", false, [⟨"x", []⟩, ⟨"$x", []⟩]⟩ "i", .neg (.eq ⟨"x", []⟩ ⟨"$x", []⟩)]),
    none, none⟩]

/-- What is read has to be answered, with variables that the guard drops. -/
def answerSource : Surface.Model where
  name := "answer"
  rules :=
    [{ name := "Read", premises := [⟨"In", false, [⟨"z", []⟩]⟩],
       actions := [⟨"Read", false, [⟨"z", []⟩]⟩] },
     { name := "Answer", premises := [⟨"In", false, [⟨"z", []⟩]⟩, ⟨"In", false, [⟨"w", []⟩]⟩],
       actions := [⟨"Answer", false, [⟨"z", []⟩, ⟨"w", []⟩]⟩] }]
  restrictions := [⟨"answered", .all ["x", "y", "$y", "#i"] (.imp
    (.action ⟨"Read", false,
      [⟨"fst", [⟨"pair", [⟨"x", []⟩, ⟨"pair", [⟨"y", []⟩, ⟨"$y", []⟩]⟩]⟩]⟩]⟩ "i")
    (.ex ["#j"] (.action ⟨"Answer", false, [⟨"y", []⟩, ⟨"$y", []⟩]⟩ "j"))), none⟩]
  lemmas := [⟨"read", .existsTrace, .ex ["x", "#i"] (.action ⟨"Read", false, [⟨"x", []⟩]⟩ "i"), none, none⟩]

/-- A rule opens what it reads, with an equation for messages that hold two more variables. -/
def crateSource : Surface.Model where
  name := "crate"
  functions := [⟨"open", 1, false⟩, ⟨"crate", 3, false⟩]
  equations := [⟨"open", ⟨"open", [⟨"crate", [⟨"x", []⟩, ⟨"$x", []⟩, ⟨"w", []⟩]⟩]⟩, ⟨"w", []⟩⟩]
  rules := [{ name := "Read", premises := [⟨"In", false, [⟨"y", []⟩]⟩],
              actions := [⟨"Read", false, [⟨"open", [⟨"y", []⟩]⟩]⟩] }]
  lemmas := [⟨"read", .existsTrace, .ex ["#i"] (.action ⟨"Read", false, [⟨"'a'", []⟩]⟩ "i"), none, none⟩]

/-- Open variables become one name if a quantifier binds a message variable and a public one of the same
name, if normalization drops such variables from a guard, and if an equation has them. -/
theorem grounding_confuses_mixed_variables :
    coupleSource.Confuses (fun m target =>
      (∀ r ∈ m.theory.rules, Unmixed r.lhs.occurrences) ∧ Unmixed (m.looseVars target)) ∧
    answerSource.Confuses (fun m target => (∀ r ∈ m.theory.rules, Unmixed r.lhs.occurrences) ∧
      ∀ f ∈ m.searched target, ∀ bs ∈ f.blocks, Unmixed (bs.filterMap Binder.var?)) ∧
    crateSource.Confuses fun m target => Unmixed (m.looseVars target) ∧
      ∀ f ∈ m.searched target, ∀ bs ∈ f.blocks, Unmixed (bs.filterMap Binder.var?) := by
  have confused : ∀ {S : System} (x y : Var), x ≠ y → x ∈ S.nodeVars ∧ y ∈ S.nodeVars ∧
      x.realization = y.realization → ¬Set.InjOn S.grounding.get? {x | x ∈ S.nodeVars} := by
    intro S x y hne h hinj
    refine hne (hinj h.1 h.2.1 ?_)
    rw [System.get?_grounding, System.get?_grounding, if_pos h.1, if_pos h.2.1, h.2.2]
  refine ⟨⟨_, _, _, rfl, List.mem_singleton_self _, by decide,
      System.reachable_advance (by decide +kernel) 5 (by decide +kernel),
      confused ⟨"x", 1, .msg⟩ ⟨"x", 1, .pub⟩ (by decide) (by decide +kernel)⟩,
    ⟨_, _, _, rfl, List.mem_singleton_self _, by decide,
      System.reachable_advance (by decide +kernel) 10 (by decide +kernel),
      confused ⟨"y", 0, .msg⟩ ⟨"y", 0, .pub⟩ (by decide) (by decide +kernel)⟩,
    _, _, _, rfl, List.mem_singleton_self _, by decide,
      System.reachable_advance (by decide +kernel) 3 (by decide +kernel),
      confused ⟨"x", 3, .msg⟩ ⟨"x", 3, .pub⟩ (by decide) (by decide +kernel)⟩

end ProtocolProver
