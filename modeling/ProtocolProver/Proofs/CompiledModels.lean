import ProtocolProver.Proofs.Grounding
import ProtocolProver.Proofs.NormalFormulas
import ProtocolProver.Proofs.PackTheories

/-!
# What a compiled model is

The terms of a compiled model respect the arities of the signature and hold public names and variables
as written (`Compiled.has`). Its rules were checked (`Compiled.checked`). If all its equations come from
packs, then its theory is standard (`Compiled.standard`).
-/

namespace ProtocolProver

/-! ## Terms and formulas -/

theorem mapError_eq_ok {ε ε' α : Type} {x : Except ε α} {f : ε → ε'} {a : α}
    (h : x.mapError f = .ok a) : x = .ok a := by
  cases x with
  | error e => cases h
  | ok b => cases h; rfl

namespace Surface

/-- A shape of all terms that can be written with a signature. -/
structure Writes (P : Shape) (sig : Signature) : Prop where
  var : ∀ v : Var, v.idx = 0 → P.var v
  name : ∀ name, Name.isReserved name = false → P.name (.pub name)
  app : ∀ f, P.app f (sig.arity f)

variable {P : Shape} {sig : Signature}

theorem idx_compileVar {text : String} {v : Var} (h : compileVar text = .ok v) : v.idx = 0 := by
  unfold compileVar at h
  split at h
  · cases h; rfl
  · cases h; rfl
  · split at h <;> cases h
    rfl
  · cases h

theorem idx_compileBinders {texts : List String} {bs : List Binder}
    (h : texts.mapM compileBinder = .ok bs) : ∀ b ∈ bs, b.idx = 0 := by
  intro b hb
  obtain ⟨text, -, h⟩ := of_mem_mapM h b hb
  unfold compileBinder at h
  split at h
  · cases h; rfl
  · obtain ⟨x, hx, rfl⟩ := map_eq_ok h
    exact idx_compileVar hx

theorem has_compileHead (hP : Writes P sig) {head : String} {t : ProtocolProver.Term}
    (h : compileHead sig head = .ok t) : t.Has P := by
  unfold compileHead at h
  split at h
  · split at h <;> cases h
    rename_i hreserved
    exact .name (hP.name _ (by simpa using hreserved))
  · split at h
    · rename_i f _
      split at h <;> cases h
      rename_i hf
      have := hP.app f
      rw [hf] at this
      exact .app this nofun
    · cases hv : compileVar head with
      | error e => rw [hv] at h; cases h
      | ok v => rw [hv] at h; cases h; exact .var (hP.var v (idx_compileVar hv))

mutual

theorem Term.has_compile (hP : Writes P sig) : ∀ {t : Term} {t' : ProtocolProver.Term},
    Term.compile sig t = .ok t' → t'.Has P
  | ⟨head, []⟩, t', h => by
    rw [Term.compile] at h
    exact has_compileHead hP h
  | ⟨head, a :: as⟩, t', h => by
    rw [Term.compile] at h
    · obtain ⟨f, hf, h⟩ := bind_eq_ok h
      obtain ⟨bs, hbs, h⟩ := bind_eq_ok h
      cases h
      obtain ⟨hlen, has⟩ := Term.has_compileList hP hbs
      refine .app ?_ has
      unfold compileSymbol at hf
      split at hf
      · cases hf
      · split at hf <;> cases hf
        rename_i harity
        rw [hlen, ← harity]
        exact hP.app f
    · simp

theorem Term.has_compileList (hP : Writes P sig) : ∀ {ts : List Term}
    {ts' : List ProtocolProver.Term},
    Term.compileList sig ts = .ok ts' → ts'.length = ts.length ∧ ∀ t ∈ ts', t.Has P
  | [], ts', h => by
    rw [Term.compileList] at h
    cases h
    exact ⟨rfl, nofun⟩
  | t :: ts, ts', h => by
    rw [Term.compileList] at h
    obtain ⟨t', ht', h⟩ := bind_eq_ok h
    obtain ⟨us, hus, h⟩ := bind_eq_ok h
    cases h
    obtain ⟨hlen, has⟩ := Term.has_compileList hP hus
    exact ⟨congrArg (· + 1) hlen, List.forall_mem_cons.2 ⟨Term.has_compile hP ht', has⟩⟩

end

theorem Fact.has_compile (hP : Writes P sig) {f : Fact} {f' : ProtocolProver.Fact}
    (h : f.compile sig = .ok f') : f'.Has P := by
  obtain ⟨args, hargs, h⟩ := bind_eq_ok h
  cases h
  split <;> exact (Term.has_compileList hP hargs).2

mutual

/-- A compiled formula has terms of the shape, and its quantifiers bind variables of index 0. -/
theorem Formula.of_compile (hP : Writes P sig) : ∀ {f : Formula} {f' : ProtocolProver.Formula},
    Formula.compile sig f = .ok f' → f'.Has P ∧ ∀ b ∈ f'.binders, b.idx = 0
  | .top, f', h => by rw [Formula.compile] at h; cases h; exact ⟨.top, nofun⟩
  | .bot, f', h => by rw [Formula.compile] at h; cases h; exact ⟨.bot, nofun⟩
  | .less i j, f', h | .timeEq i j, f', h => by
    rw [Formula.compile] at h; cases h; exact ⟨.atom nofun, nofun⟩
  | .action f i, f', h => by
    rw [Formula.compile] at h
    obtain ⟨g, hg, h⟩ := bind_eq_ok h
    cases h
    exact ⟨.atom (Fact.has_compile hP hg), nofun⟩
  | .knows t i, f', h => by
    rw [Formula.compile] at h
    obtain ⟨u, hu, h⟩ := bind_eq_ok h
    cases h
    exact ⟨.atom (List.forall_mem_singleton.2 (Term.has_compile hP hu)), nofun⟩
  | .eq s t, f', h => by
    rw [Formula.compile] at h
    obtain ⟨u, hu, h⟩ := bind_eq_ok h
    obtain ⟨v, hv, h⟩ := bind_eq_ok h
    cases h
    exact ⟨.atom (List.forall_mem_cons.2 ⟨Term.has_compile hP hu,
      List.forall_mem_singleton.2 (Term.has_compile hP hv)⟩), nofun⟩
  | .neg f, f', h => by
    rw [Formula.compile] at h
    obtain ⟨g, hg, h⟩ := bind_eq_ok h
    cases h
    obtain ⟨hg, hbs⟩ := Formula.of_compile hP hg
    exact ⟨.neg hg, hbs⟩
  | .conj fs, f', h => by
    rw [Formula.compile] at h
    obtain ⟨gs, hgs, h⟩ := bind_eq_ok h
    cases h
    obtain ⟨hgs, hbs⟩ := Formula.of_compileList hP hgs
    exact ⟨.conj hgs, hbs⟩
  | .disj fs, f', h => by
    rw [Formula.compile] at h
    obtain ⟨gs, hgs, h⟩ := bind_eq_ok h
    cases h
    obtain ⟨hgs, hbs⟩ := Formula.of_compileList hP hgs
    exact ⟨.disj hgs, hbs⟩
  | .imp f g, f', h => by
    rw [Formula.compile] at h
    obtain ⟨p, hp, h⟩ := bind_eq_ok h
    obtain ⟨q, hq, h⟩ := bind_eq_ok h
    cases h
    obtain ⟨hp, hbs⟩ := Formula.of_compile hP hp
    obtain ⟨hq, hcs⟩ := Formula.of_compile hP hq
    exact ⟨.imp hp hq, List.forall_mem_append.2 ⟨hbs, hcs⟩⟩
  | .ex bs f, f', h => by
    rw [Formula.compile] at h
    obtain ⟨cs, hcs, h⟩ := bind_eq_ok h
    obtain ⟨g, hg, h⟩ := bind_eq_ok h
    cases h
    obtain ⟨hg, hbs⟩ := Formula.of_compile hP hg
    exact ⟨.ex (fun _ _ => trivial) hg, List.forall_mem_append.2 ⟨idx_compileBinders hcs, hbs⟩⟩
  | .all bs f, f', h => by
    rw [Formula.compile] at h
    obtain ⟨cs, hcs, h⟩ := bind_eq_ok h
    obtain ⟨g, hg, h⟩ := bind_eq_ok h
    cases h
    obtain ⟨hg, hbs⟩ := Formula.of_compile hP hg
    exact ⟨.all (fun _ _ => trivial) hg, List.forall_mem_append.2 ⟨idx_compileBinders hcs, hbs⟩⟩

theorem Formula.of_compileList (hP : Writes P sig) : ∀ {fs : List Formula}
    {fs' : List ProtocolProver.Formula}, Formula.compileList sig fs = .ok fs' →
      (∀ f ∈ fs', f.Has P) ∧ ∀ b ∈ ProtocolProver.Formula.bindersList fs', b.idx = 0
  | [], fs', h => by
    rw [Formula.compileList] at h
    cases h
    exact ⟨nofun, nofun⟩
  | f :: fs, fs', h => by
    rw [Formula.compileList] at h
    obtain ⟨g, hg, h⟩ := bind_eq_ok h
    obtain ⟨gs, hgs, h⟩ := bind_eq_ok h
    cases h
    obtain ⟨hg, hbs⟩ := Formula.of_compile hP hg
    obtain ⟨hgs, hcs⟩ := Formula.of_compileList hP hgs
    exact ⟨List.forall_mem_cons.2 ⟨hg, hgs⟩, List.forall_mem_append.2 ⟨hbs, hcs⟩⟩

end

theorem Formula.idx_binders {f : Formula} {f' : ProtocolProver.Formula}
    (h : Formula.compile sig f = .ok f') : ∀ b ∈ f'.binders, b.idx = 0 :=
  (Formula.of_compile (P := ⟨fun _ => True, fun _ => True, fun _ _ => True⟩)
    ⟨fun _ _ => trivial, fun _ _ => trivial, fun _ => trivial⟩ h).2

/-! ## Rules -/

theorem has_definitions {lets : List (Var × ProtocolProver.Term)} (h : ∀ d ∈ lets, d.2.Has P)
    {v : Var} (hv : P.var v) : ((ProtocolProver.Rule.definitions lets).value v).Has P := by
  have fold : ∀ {lets : List (Var × ProtocolProver.Term)} {defs : Subst},
      (∀ d ∈ lets, d.2.Has P) → (∀ v, P.var v → (defs.value v).Has P) → ∀ v, P.var v →
        (Subst.value (lets.foldl (fun defs d => defs.insert d.1 (defs.apply d.2)) defs) v).Has P := by
    intro lets
    induction lets with
    | nil => exact fun _ h => h
    | cons d lets ih =>
      intro defs h hdefs
      obtain ⟨hd, h⟩ := List.forall_mem_cons.1 h
      refine ih h fun v hv => ?_
      rw [Subst.value, SortedMap.get?_insert]
      split
      · exact hd.mapVars (fun w hw => hdefs w (hd.var_of_mem hw)) (fun _ h => h) fun _ _ h => h
      · exact hdefs v hv
  exact fold h (fun v hv => (show ((∅ : Subst).value v).Has P from .var hv)) v hv

theorem has_build {name : String} {kind : ProtocolProver.RuleKind}
    {premises actions conclusions : List ProtocolProver.Fact}
    {lets : List (Var × ProtocolProver.Term)} {restrict : Option ProtocolProver.Formula}
    {r : ProtocolProver.Rule} (hpremises : ∀ f ∈ premises, f.Has P)
    (hactions : ∀ f ∈ actions, f.Has P) (hconclusions : ∀ f ∈ conclusions, f.Has P)
    (hlets : ∀ d ∈ lets, d.2.Has P) (hrestrict : ∀ f ∈ restrict, f.Has P)
    (h : ProtocolProver.Rule.build name kind premises actions conclusions lets restrict = .ok r) :
    r.Has P ∧ r.name = name ∧ ∀ f ∈ r.facts, ∀ t ∈ f.args, ∀ v ∈ t.occurrences, v ∈ r.vars := by
  have facts : ∀ {fs : List ProtocolProver.Fact}, (∀ f ∈ fs, f.Has P) →
      ∀ f ∈ fs.map (·.apply (ProtocolProver.Rule.definitions lets)), f.Has P := by
    intro fs hfs f' hf'
    obtain ⟨f, hf, rfl⟩ := List.mem_map.1 hf'
    exact (hfs f hf).mapTerms fun t ht =>
      ht.mapVars (fun v hv => has_definitions hlets (ht.var_of_mem hv)) (fun _ h => h) fun _ _ h => h
  obtain ⟨nnf, hnnf, h⟩ := bind_eq_ok h
  cases h
  refine ⟨⟨facts hpremises, facts hactions, facts hconclusions, fun f hf => ?_⟩, rfl,
    fun f hf t ht v hv => ?_⟩
  · cases restrict with
    | none => cases hnnf; cases hf
    | some F =>
      have hF := hrestrict F rfl
      simp only [Option.mapM_some] at hnnf
      obtain ⟨n, hn, rfl⟩ := map_eq_ok hnnf
      cases hf
      split at hn
      · rename_i nnf' hnnf'
        cases hn
        exact (hF.toTermNnf hnnf').instantiate_values fun v => has_definitions hlets
      · cases hn
  · refine List.mem_eraseDups.2 (List.mem_append_left _ (List.mem_flatMap.2 ⟨f, hf, ?_⟩))
    rw [Term.occurrencesList_eq]
    exact List.mem_flatMap.2 ⟨t, ht, hv⟩

theorem Rule.has_compile (hP : Writes P sig) {r : Rule} {r' : ProtocolProver.Rule}
    (h : r.compile sig = .ok r') : r'.Has P ∧ r'.name = r.name ∧
      ∀ f ∈ r'.facts, ∀ t ∈ f.args, ∀ v ∈ t.occurrences, v ∈ r'.vars := by
  have facts : ∀ {fs : List Fact} {fs' : List ProtocolProver.Fact},
      fs.mapM (Fact.compile sig) = .ok fs' → ∀ f ∈ fs', f.Has P := by
    intro fs fs' hfs f' hf'
    obtain ⟨f, -, hf⟩ := of_mem_mapM hfs f' hf'
    exact Fact.has_compile hP hf
  obtain ⟨lets, hlets, h⟩ := bind_eq_ok h
  obtain ⟨restrict, hrestrict, h⟩ := bind_eq_ok h
  obtain ⟨premises, hpremises, h⟩ := bind_eq_ok h
  obtain ⟨actions, hactions, h⟩ := bind_eq_ok h
  obtain ⟨conclusions, hconclusions, h⟩ := bind_eq_ok h
  refine has_build (facts hpremises) (facts hactions) (facts hconclusions) (fun d hd => ?_)
    (fun F hF => ?_) (mapError_eq_ok h)
  · obtain ⟨d', -, hd'⟩ := of_mem_mapM hlets d hd
    obtain ⟨v, -, hd'⟩ := bind_eq_ok hd'
    obtain ⟨t, ht, hd'⟩ := bind_eq_ok hd'
    cases hd'
    exact Term.has_compile hP ht
  · cases hr : r.restrict with
    | none => rw [hr] at hrestrict; cases hrestrict; cases hF
    | some G =>
      rw [hr, Option.mapM_some] at hrestrict
      obtain ⟨F', hF', rfl⟩ := map_eq_ok hrestrict
      cases hF
      exact (Formula.of_compile hP hF').1

theorem Restriction.has_compile (hP : Writes P sig) {r : Restriction}
    {r' : ProtocolProver.Restriction} (h : r.compile sig = .ok r') : r'.nnf.Has P := by
  obtain ⟨F, hF, h⟩ := bind_eq_ok h
  have h := mapError_eq_ok h
  unfold ProtocolProver.Restriction.build at h
  split at h
  · rename_i nnf hnnf
    cases h
    exact (Formula.of_compile hP (mapError_eq_ok hF)).1.toNnf hnnf
  · cases h

end Surface

/-! ## Checks -/

/-- What is checked of the rules that a model brings. -/
structure Rule.Valid (r : Rule) : Prop where
  premises : ∀ f ∈ r.premises, f.pred ≠ Pred.output ∧ f.pred ≠ Pred.knows
  drawn : ∀ f ∈ r.premises, f.pred = Pred.fresh → ∃ v : Var, v.sort = .fresh ∧ f.args = [.var v]
  actions : ∀ f ∈ r.actions, Pred.isReserved f.pred = false
  conclusions : ∀ f ∈ r.conclusions, Pred.isReserved f.pred = true → f.pred = Pred.output
  bound : ∀ v ∈ r.vars, v.sort = .pub ∨ v ∈ factVars r.premises
  sorts : ∀ v ∈ r.vars, ∀ w ∈ r.vars, v.name = w.name → v.idx = w.idx → v.sort = w.sort

theorem of_forM_eq_ok {ε α : Type} {f : α → Except ε Unit} : ∀ {as : List α},
    as.forM f = .ok () → ∀ a ∈ as, f a = .ok ()
  | [], _, _, ha => by cases ha
  | a :: as, h, b, hb => by
    obtain ⟨⟨⟩, ha, h⟩ := bind_eq_ok h
    rcases List.mem_cons.1 hb with rfl | hb
    · exact ha
    · exact of_forM_eq_ok h b hb

theorem Rule.sorts_of_ambiguous? {vs : List Var} (h : ambiguous? [] vs = none) :
    ∀ v ∈ vs, ∀ w ∈ vs, v.name = w.name → v.idx = w.idx → v.sort = w.sort := by
  have pairs : ∀ {vs seen : List Var}, ambiguous? seen vs = none →
      (∀ w ∈ vs, ∀ v ∈ seen, v.name = w.name → v.idx = w.idx → v.sort = w.sort) ∧
        vs.Pairwise fun v w => v.name = w.name → v.idx = w.idx → v.sort = w.sort := by
    intro vs
    induction vs with
    | nil => exact fun _ => ⟨List.forall_mem_nil _, .nil⟩
    | cons w vs ih =>
      intro seen h
      rw [ambiguous?] at h
      split at h
      · cases h
      · rename_i hw
        obtain ⟨hseen, hvs⟩ := ih h
        simp only [List.forall_mem_append, List.forall_mem_singleton] at hseen
        refine ⟨List.forall_mem_cons.2 ⟨fun v hv hname hidx => ?_, fun u hu => (hseen u hu).1⟩,
          .cons (fun u hu => (hseen u hu).2) hvs⟩
        by_contra hsort
        exact hw (List.any_eq_true.2 ⟨v, hv, by simp [hname, hidx, hsort]⟩)
  have : Std.Symm fun v w : Var => v.name = w.name → v.idx = w.idx → v.sort = w.sort :=
    ⟨fun _ _ hvw hname hidx => (hvw hname.symm hidx.symm).symm⟩
  exact fun v hv w hw => (pairs h).2.forall_of_forall (fun _ _ _ _ => rfl) hv hw

theorem Rule.valid_of_validate {r : Rule} (h : r.validate = .ok ()) : r.Valid := by
  have absent : ∀ {α : Type} {p : α → Bool} {as : List α}, (∀ a, as.find? p = some a → False) →
      ∀ a ∈ as, p a = false := fun hnone a ha =>
    Bool.eq_false_iff.2 (List.find?_eq_none.1 (Option.eq_none_iff_forall_ne_some.2 hnone) a ha)
  obtain ⟨⟨⟩, hpremises, h⟩ := bind_eq_ok h
  simp only at h
  split at h
  · obtain ⟨_, hthrow, -⟩ := bind_eq_ok h
    cases hthrow
  · rename_i hactions
    obtain ⟨⟨⟩, hconclusions, h⟩ := bind_eq_ok h
    split at h
    · obtain ⟨_, hthrow, -⟩ := bind_eq_ok h
      cases hthrow
    · rename_i hbound
      split at h
      · cases h
      rename_i hsorts
      have premise : ∀ f ∈ r.premises, (f.pred ≠ Pred.output ∧ f.pred ≠ Pred.knows) ∧
          (f.pred = Pred.fresh → ∃ v : Var, v.sort = .fresh ∧ f.args = [.var v]) := by
        intro f hf
        have hcheck := of_forM_eq_ok hpremises f hf
        unfold checkPremise at hcheck
        simp only at hcheck
        split at hcheck
        · obtain ⟨_, hthrow, -⟩ := bind_eq_ok hcheck
          cases hthrow
        · rename_i hpred
          simp only [Bool.or_eq_true, beq_iff_eq, not_or] at hpred
          refine ⟨hpred, fun hfresh => ?_⟩
          rw [if_pos (beq_iff_eq.2 hfresh)] at hcheck
          split at hcheck
          · rename_i name idx hargs
            exact ⟨⟨name, idx, .fresh⟩, rfl, hargs⟩
          · cases hcheck
      refine ⟨fun f hf => (premise f hf).1, fun f hf => (premise f hf).2, absent hactions,
        fun f hf hres => ?_, fun v hv => ?_, sorts_of_ambiguous? (Option.eq_none_iff_forall_ne_some.2 hsorts)⟩
      · have hcheck := of_forM_eq_ok hconclusions f hf
        unfold checkConclusion at hcheck
        simp only at hcheck
        split at hcheck
        · obtain ⟨_, hthrow, -⟩ := bind_eq_ok hcheck
          cases hthrow
        · rename_i hpred
          simpa [hres] using hpred
      · have := absent hbound v hv
        simp only [Bool.and_eq_false_iff, bne_eq_false_iff_eq, Bool.not_eq_false',
          List.contains_iff_mem] at this
        exact this

theorem Model.of_checkRules : ∀ {rs : List Rule} {names : List String}
    {arities : List (String × Nat)}, checkRules names arities rs = .ok () →
      (∀ r ∈ rs, r.Valid ∧ r.name ∉ names) ∧ (rs.map Rule.name).Nodup
  | [], _, _, _ => ⟨nofun, .nil⟩
  | r :: rs, names, arities, h => by
    rw [checkRules] at h
    simp only at h
    split at h
    · obtain ⟨_, hthrow, -⟩ := bind_eq_ok h
      cases hthrow
    · rename_i hname
      obtain ⟨⟨⟩, hvalid, h⟩ := bind_eq_ok h
      obtain ⟨arities', -, h⟩ := bind_eq_ok h
      obtain ⟨hrest, hnodup⟩ := of_checkRules h
      have hnew : ∀ r' ∈ rs, r'.name ∉ names ∧ r'.name ≠ r.name := fun r' hr' => by
        simpa [not_or] using (hrest r' hr').2
      refine ⟨List.forall_mem_cons.2 ⟨⟨r.valid_of_validate hvalid, by simpa using hname⟩,
        fun r' hr' => ⟨(hrest r' hr').1, (hnew r' hr').1⟩⟩, List.nodup_cons.2 ⟨fun hmem => ?_, hnodup⟩⟩
      obtain ⟨r', hr', he⟩ := List.mem_map.1 hmem
      exact (hnew r' hr').2 he

/-! ## Models -/

namespace Surface

theorem of_foldlM_eq_ok {ε α β : Type} {f : β → α → Except ε β} {I : β → Prop}
    (hf : ∀ b a b', I b → f b a = .ok b' → I b') : ∀ {as : List α} {b b' : β},
      as.foldlM f b = .ok b' → I b → I b'
  | [], b, b', h, hb => by cases h; exact hb
  | a :: as, b, b', h, hb => by
    rw [List.foldlM_cons] at h
    obtain ⟨c, hc, h⟩ := bind_eq_ok h
    exact of_foldlM_eq_ok hf h (hf b a c hb hc)

theorem assembled_loadPacks {names : List String} {pack : Pack} {sig : Signature}
    (h : loadPacks names .builtin = .ok (pack, sig)) : Assembled pack sig := by
  refine of_foldlM_eq_ok (I := fun p : Pack × Signature => Assembled p.1 p.2) ?_ h .builtin
  rintro ⟨pack, sig⟩ name ⟨pack', sig'⟩ hp h
  simp only at h
  split at h <;> cases h
  exact hp.load ‹_›

theorem assembled_declareFunctions {fs : List Function} {pack : Pack} {sig sig' : Signature}
    (hp : Assembled pack sig) (h : declareFunctions fs sig = .ok sig') : Assembled pack sig' := by
  refine of_foldlM_eq_ok (I := Assembled pack) ?_ h hp
  intro sig f sig' hp h
  obtain ⟨⟨g, sig''⟩, hd, h⟩ := bind_eq_ok h
  cases h
  exact hp.declare (mapError_eq_ok hd)

/-- What a compiled model is made of. -/
structure Compiles (src : Model) (pack : Pack) (sig : Signature) (es : List Reduction)
    (rs : List ProtocolProver.Rule) (m : ProtocolProver.Model) : Prop where
  assembled : Assembled pack sig
  equations : src.equations.mapM (Equation.compile sig) = .ok es
  accepted : Theory.ofRules sig (pack.equations ++ es) pack.algebras = .ok m.theory
  theory : m.theory = ⟨sig, pack.algebras, Reduction.projections ++ (pack.equations ++ es)⟩
  rules : m.rules = rs ++ [ProtocolProver.Rule.learn]
  compiled : ∀ r ∈ rs, ∃ r₀ ∈ src.rules, r₀.compile sig = .ok r
  valid : ∀ r ∈ rs, r.Valid
  nodup : (rs.map ProtocolProver.Rule.name).Nodup
  restrictions : ∀ r ∈ m.restrictions, ∃ r₀ ∈ src.restrictions, r₀.compile sig = .ok r
  lemmas : ∀ l ∈ m.lemmas, ∃ l₀ ∈ src.lemmas, l₀.compile sig = .ok l

theorem Model.compiles {src : Model} {flags : SortedSet String} {c : Compiled}
    (h : src.compile flags = .ok c) : ∃ pack sig equations rules,
      Compiles src pack sig equations rules c.model := by
  obtain ⟨⟨pack, sig₀⟩, hload, h⟩ := bind_eq_ok h
  obtain ⟨sig, hdeclare, h⟩ := bind_eq_ok h
  obtain ⟨equations, hequations, h⟩ := bind_eq_ok h
  obtain ⟨theory, htheory, h⟩ := bind_eq_ok h
  obtain ⟨rules, hrules, h⟩ := bind_eq_ok h
  obtain ⟨restrictions, hrestrictions, h⟩ := bind_eq_ok h
  obtain ⟨tactics, -, h⟩ := bind_eq_ok h
  obtain ⟨model, hmodel, h⟩ := bind_eq_ok h
  cases h
  obtain ⟨⟨⟩, hcheck, hbuild⟩ := bind_eq_ok (mapError_eq_ok hmodel)
  cases hbuild
  obtain ⟨hvalid, hnodup⟩ := Model.of_checkRules hcheck
  refine ⟨pack, sig, equations, rules, assembled_declareFunctions (assembled_loadPacks hload) hdeclare,
    hequations, mapError_eq_ok htheory, Theory.ofRules_eq_ok (mapError_eq_ok htheory), rfl, fun r hr => ?_,
    fun r hr => (hvalid r hr).1, hnodup, fun r hr => ?_, fun l hl => ?_⟩
  · obtain ⟨r₀, hr₀, hc⟩ := of_mem_mapM hrules r hr
    exact ⟨r₀, (List.mem_filter.1 hr₀).1, mapError_eq_ok hc⟩
  · obtain ⟨r₀, hr₀, hc⟩ := of_mem_mapM hrestrictions r hr
    exact ⟨r₀, (List.mem_filter.1 hr₀).1, hc⟩
  · obtain ⟨⟨name, l'⟩, hl', he⟩ := List.mem_filterMap.1 hl
    obtain ⟨l₀, hl₀, he'⟩ := List.mem_map.1 hl'
    cases he'
    refine ⟨l₀, (List.mem_filter.1 hl₀).1, ?_⟩
    cases hc : l₀.compile sig with
    | error e => rw [hc] at he; cases he
    | ok l' => rw [hc] at he; cases he; rfl

end Surface

/-! ## Equations of packs only -/

namespace Theory

variable {T : Theory}

/-- Terms with the declared arities, where products and sums may be flat, and without fresh values. -/
def publicShape (T : Theory) : Shape := ⟨fun _ => True, fun n => n.sort = .pub, T.flatShape.app⟩

theorem IsConstructor.isDestructor {f : Symbol} (hf : T.IsConstructor f) : T.isDestructor f = false :=
  List.any_eq_false.2 fun r hr => by simpa using hf.noRule r hr

theorem isConstructor_of_isDestructor {f : Symbol} (ho : T.algebras.owner? f = none)
    (hd : T.isDestructor f = false) : T.IsConstructor f :=
  ⟨ho, fun r hr => by simpa using List.any_eq_false.1 hd r hr⟩

theorem isConstructor_iff {f : Symbol} :
    T.IsConstructor f ↔ (T.isAlgebraic f || T.isDestructor f) = false := by
  rw [Bool.or_eq_false_iff, isAlgebraic, Option.isSome_eq_false_iff, Option.isNone_iff_eq_none]
  exact ⟨fun h => ⟨h.free, h.isDestructor⟩, fun h => isConstructor_of_isDestructor h.1 h.2⟩

namespace Standard

variable (hT : T.Standard)

include hT

theorem flat_arity (f : Symbol) : T.flatShape.app f (T.signature.arity f) := by
  change if T.isAssoc f then _ else _
  split
  · rename_i hf
    rw [hT.arity_assoc hf]
    exact fun _ => Nat.two_pos
  · rfl

theorem isDestructor_of_isAlgebraic {f : Symbol} (hf : T.isAlgebraic f = true) :
    T.isDestructor f = false := by
  rw [isDestructor, List.any_eq_false]
  intro r hr he
  obtain ⟨g, ps, hl, hg, -⟩ := (hT.rule r hr).lhs
  rw [hl, beq_iff_eq] at he
  cases he
  rw [isAlgebraic, hg] at hf
  cases hf

/-- Normal forms keep every shape that allows, in its arities, each symbol but the destructors. -/
theorem keeps_of_app {P : Shape}
    (happ : ∀ f n, T.flatShape.app f n → T.isDestructor f = false → P.app f n) : T.Keeps P := by
  have fixed : ∀ {f : Symbol} {a : Algebra}, T.algebras.owner? f = some a →
      f.index < Signature.builtin.size → P.app f (Signature.builtin.arity f) := fun ho hf =>
    happ _ _ (hT.arity_builtin hf ▸ hT.flat_arity _)
      (hT.isDestructor_of_isAlgebraic (by rw [isAlgebraic, ho]; rfl))
  have assoc : ∀ {f : Symbol} {a : Algebra}, T.algebras.owner? f = some a → T.isAssoc f = true →
      ∀ n, (f = .union → 0 < n) → P.app f n := fun ho hf n hn => by
    refine happ _ n ?_ (hT.isDestructor_of_isAlgebraic (by rw [isAlgebraic, ho]; rfl))
    change if T.isAssoc _ then _ else _
    rw [if_pos hf]
    exact hn
  refine ⟨fun he => ?_, fun hx => ?_, fun hu n => ?_, fun r hr => ?_⟩
  · have own := fun {f : Symbol} => @Algebras.owner?_exponents T.algebras f he
    exact ⟨fixed (own rfl) (by decide), fixed (own rfl) (by decide), fixed (own rfl) (by decide),
      fun n => assoc (own rfl) (isAssoc_eq_true_iff.2 (.inl ⟨he, rfl⟩)) n (absurd · (by decide))⟩
  · have own := fun {f : Symbol} => @Algebras.owner?_xor T.algebras f hx
    exact ⟨fixed (own rfl) (by decide), fun n =>
      assoc (own rfl) (isAssoc_eq_true_iff.2 (.inr (.inl ⟨hx, rfl⟩))) n (absurd · (by decide))⟩
  · exact assoc (Algebras.owner?_multisets hu) (isAssoc_eq_true_iff.2 (.inr (.inr ⟨hu, rfl⟩))) _
      fun _ => Nat.succ_pos n
  · rcases (hT.rule r hr).rhs with ⟨v, hv, he⟩ | ⟨c, he, hc, ha⟩ <;> rw [he]
    · exact .var (.inr hv)
    · exact .app (happ c 0 (ha ▸ hT.flat_arity c) hc.isDestructor) nofun

/-- A theory closes every shape that allows all variables and, in its arities, each symbol but the
destructors. -/
theorem closes_of_app {P : Shape} (hvar : ∀ v, P.var v)
    (happ : ∀ f n, T.flatShape.app f n → T.isDestructor f = false → P.app f n) : T.Closes P := by
  have hkeeps := hT.keeps_of_app happ
  have pattern : ∀ {p : Term}, p.Has T.patternShape → p.Has P := fun hp =>
    hp.mono (fun v _ => hvar v) (fun _ h => h.elim) fun f _ h =>
      happ f _ (h.2 ▸ hT.flat_arity f) h.1.isDestructor
  refine ⟨hvar, hkeeps.exponents, hkeeps.xor, hkeeps.multisets, fun r hr => ⟨fun a ha => ?_,
    (hkeeps.contract r hr).mono (fun v _ => hvar v) (fun _ h => h) fun _ _ h => h⟩⟩
  obtain ⟨f, ps, hl, -, -, hps⟩ := (hT.rule r hr).lhs
  rw [hl] at ha
  exact pattern (hps a ha)

theorem closes_publicShape : T.Closes T.publicShape :=
  hT.closes_of_app (fun _ => trivial) fun _ _ hf _ => hf

end Standard

end Theory

namespace Surface

variable {src : Model} {pack : Pack} {sig : Signature} {rs : List ProtocolProver.Rule}
  {m : ProtocolProver.Model}

namespace Compiles

theorem mem_rules {es : List Reduction} (h : Compiles src pack sig es rs m) {r : ProtocolProver.Rule}
    (hr : r ∈ m.rules) : r ∈ rs ∨ r = ProtocolProver.Rule.learn := by
  rw [h.rules] at hr
  simpa using hr

theorem has {es : List Reduction} (h : Compiles src pack sig es rs m) {P : Shape} (hP : Writes P sig) :
    m.Has P := by
  refine ⟨fun r hr => ?_, fun r hr => ?_⟩
  · rcases h.mem_rules hr with hr | rfl
    · obtain ⟨r₀, -, hc⟩ := h.compiled r hr
      exact (Rule.has_compile hP hc).1
    · have hx : ∀ pred, (ProtocolProver.Fact.linear pred [.var (.msg "x")]).Has P :=
        fun _ => List.forall_mem_singleton.2 (.var (hP.var _ rfl))
      exact ⟨List.forall_mem_singleton.2 (hx _), List.forall_mem_singleton.2 (hx _), nofun, nofun⟩
  · obtain ⟨r₀, -, hc⟩ := h.restrictions r hr
    exact Restriction.has_compile hP hc

theorem covers {es : List Reduction} (h : Compiles src pack sig es rs m) {r : ProtocolProver.Rule}
    (hr : r ∈ m.rules) : ∀ f ∈ r.facts, ∀ t ∈ f.args, ∀ v ∈ t.occurrences, v ∈ r.vars := by
  rcases h.mem_rules hr with hr | rfl
  · obtain ⟨r₀, -, hc⟩ := h.compiled r hr
    have hany : Writes ⟨fun _ => True, fun _ => True, fun _ _ => True⟩ sig :=
      ⟨fun _ _ => trivial, fun _ _ => trivial, fun _ => trivial⟩
    exact (Rule.has_compile hany hc).2.2
  · decide

variable (h : Compiles src pack sig [] rs m)

include h

theorem standard : m.theory.Standard := by
  rw [h.theory]
  exact Assembled.standard (T := ⟨sig, pack.algebras, _⟩) h.assembled (by rw [List.append_nil])

theorem writes : Writes m.theory.publicShape sig := by
  refine ⟨fun _ _ => trivial, fun _ _ => rfl, fun f => ?_⟩
  have := h.standard.flat_arity f
  rw [h.theory] at this ⊢
  exact this

theorem regular : m.Regular m.theory.publicShape :=
  ⟨h.standard, h.standard.closes_publicShape, fun _ _ hf => hf, h.has h.writes, fun _ hr => h.covers hr⟩

end Compiles

theorem Compiles.checked {es : List Reduction} (h : Compiles src pack sig es rs m)
    (hlearn : ∀ r ∈ rs, r.name ≠ ProtocolProver.Rule.learnName) : m.Checked := by
  have hnodup : (m.rules.map ProtocolProver.Rule.name).Nodup := by
    rw [h.rules, List.map_append]
    refine List.nodup_append.2 ⟨h.nodup, by simp, fun n hn n' hn' => ?_⟩
    obtain ⟨r, hr, rfl⟩ := List.mem_map.1 hn
    rw [List.map_singleton, List.mem_singleton] at hn'
    exact hn' ▸ hlearn r hr
  refine ⟨fun r hr => ?_, fun r hr f hf => ?_, fun r hr f hf hfr => ?_⟩
  · cases hfind : m.rule? r.name with
    | none => exact absurd (List.find?_eq_none.1 hfind r hr) (by simp)
    | some r' =>
      have hname : r'.name = r.name := by simpa using List.find?_some hfind
      rw [List.inj_on_of_nodup_map hnodup (List.mem_of_find?_eq_some hfind) hr hname]
  · rcases h.mem_rules hr with hr | rfl
    · exact ((h.valid r hr).premises f hf).1
    · rw [List.mem_singleton.1 hf]
      decide
  · rcases h.mem_rules hr with hr | rfl
    · exact (h.valid r hr).drawn f hf hfr
    · rw [List.mem_singleton.1 hf] at hfr
      exact absurd hfr (by decide)

end Surface

end ProtocolProver
