import ProtocolProver.Proofs.Executions

/-!
# Compiled models without destructors

A compiled model whose equations all come from packs, without algebraic operators and without
destructors in its rules and restrictions, is plain (`Surface.Compiles.plain`): its rules of the
theory take a part out of the symbol that they open, and its quantifiers bind variables of index 0.
-/

namespace ProtocolProver

/-! ## Theories of packs -/

theorem Assembled.opens {pack : Pack} {T : Theory} (hp : Assembled pack T.signature)
    (hT : T.rules = Reduction.projections ++ pack.equations) {r : Reduction} {i : Nat} {g c : Symbol}
    {as ps : List Term} (h : T.Opens r i g as c ps) : (∃ v, r.rhs = .var v ∧ .var v ∈ ps) ∧
      (∀ v ∈ r.lhs.occurrences, v ∈ (Term.app c ps).occurrences) ∧
        (Term.app c ps).size < Theory.maxWork := by
  obtain ⟨hr, hlhs, hinput, -, harg⟩ := h
  rcases List.mem_append.1 (hT ▸ hr) with hr | hr
  · simp only [Reduction.projections, List.mem_cons, List.not_mem_nil, or_false] at hr
    rcases hr with rfl | rfl
    all_goals
      cases hlhs
      cases hinput
      cases harg
      exact ⟨⟨_, rfl, by simp⟩, by simp [Term.occurrences, Term.occurrencesList, Term.pair], by decide⟩
  · cases hp.rules r hr with
    | verify => cases hinput
    | getMessage | sdec | adec =>
      cases hlhs
      cases hinput
      cases harg
      exact ⟨⟨_, rfl, by simp⟩, by simp [Term.occurrences, Term.occurrencesList],
        by simp [Term.size, Term.sizeList, Theory.maxWork]⟩

theorem Assembled.shallow {pack : Pack} {T : Theory} (hp : Assembled pack T.signature)
    (hT : T.rules = Reduction.projections ++ pack.equations) : T.Shallow := by
  refine ⟨fun h => (hp.opens hT h).1, fun h => (hp.opens hT h).2.1, fun r hr => ?_⟩
  rcases List.mem_append.1 (hT ▸ hr) with hr | hr
  · simp only [Reduction.projections, List.mem_cons, List.not_mem_nil, or_false] at hr
    rcases hr with rfl | rfl <;> simp [Term.occurrences, Term.occurrencesList, Var.msg, Term.pair]
  · cases hp.rules r hr <;> simp [Term.occurrences, Term.occurrencesList, Var.msg]

namespace Surface

/-! ## Rules -/

theorem mem_factOccurrences {fs : List ProtocolProver.Fact} {x : Var} :
    x ∈ factOccurrences fs ↔ ∃ f ∈ fs, ∃ t ∈ f.args, x ∈ t.occurrences := by
  simp [factOccurrences, Term.occurrencesList_eq]

/-- The condition of a rule has no free timepoints, and the rule lists all its variables. -/
theorem Rule.compile_condition {sig : Signature} {r : Rule} {r' : ProtocolProver.Rule}
    (h : r.compile sig = .ok r') {f : Nnf} (hf : r'.restrict = some f) :
    f.Scoped .indexed ⟨fun _ => True, fun _ => False⟩ ∧ ∀ x ∈ f.freeOccurrences, x ∈ r'.vars := by
  obtain ⟨lets, -, h⟩ := bind_eq_ok h
  obtain ⟨restrict, hrestrict, h⟩ := bind_eq_ok h
  obtain ⟨premises, -, h⟩ := bind_eq_ok h
  obtain ⟨actions, -, h⟩ := bind_eq_ok h
  obtain ⟨conclusions, -, h⟩ := bind_eq_ok h
  obtain ⟨nnf, hnnf, h⟩ := bind_eq_ok (mapError_eq_ok h)
  cases h
  cases hf
  refine ⟨?_, fun x hx => List.mem_eraseDups.2 (List.mem_append_right _ hx)⟩
  cases hr : r.restrict with
  | none =>
    rw [hr] at hrestrict
    cases hrestrict
    cases hnnf
  | some F =>
    rw [hr, Option.mapM_some] at hrestrict
    obtain ⟨F', hF, rfl⟩ := map_eq_ok hrestrict
    rw [Option.mapM_some] at hnnf
    obtain ⟨n, hn, he⟩ := map_eq_ok hnnf
    cases he
    split at hn
    · rename_i n' hn'
      cases hn
      unfold ProtocolProver.Formula.toTermNnf at hn'
      split at hn'
      · rename_i htimes
        have hscope := ProtocolProver.Formula.scoped_of_free (L := .indexed)
          (s := ⟨fun _ => True, fun _ => False⟩) (Formula.idx_binders hF) (fun _ _ => trivial)
          (fun _ _ => trivial) fun i hi => by
            have := List.mem_eraseDups.2 hi
            rw [show F'.timeOccurrences.eraseDups = [] from List.isEmpty_iff.1 htimes] at this
            cases this
        have hforms := hscope.forms (ProtocolProver.Formula.yields_scopes _)
        exact (hforms.pos n' hn').instantiate ⟨fun _ _ _ _ => trivial, fun _ h => h.elim⟩
      · cases hn'
    · cases hn

theorem Rule.compile_vars {sig : Signature} {r : Rule} {r' : ProtocolProver.Rule}
    (h : r.compile sig = .ok r') {x : Var} (hx : x ∈ r'.vars) :
    (∃ f ∈ r'.facts, ∃ t ∈ f.args, x ∈ t.occurrences) ∨
      ∃ f, r'.restrict = some f ∧ x ∈ f.freeOccurrences := by
  obtain ⟨lets, -, h⟩ := bind_eq_ok h
  obtain ⟨restrict, -, h⟩ := bind_eq_ok h
  obtain ⟨premises, -, h⟩ := bind_eq_ok h
  obtain ⟨actions, -, h⟩ := bind_eq_ok h
  obtain ⟨conclusions, -, h⟩ := bind_eq_ok h
  obtain ⟨nnf, -, h⟩ := bind_eq_ok (mapError_eq_ok h)
  cases h
  rcases List.mem_append.1 (List.mem_eraseDups.1 hx) with hx | hx
  · exact .inl (mem_factOccurrences.1 hx)
  · cases nnf with
    | none => cases hx
    | some f => exact .inr ⟨f, rfl, hx⟩

theorem Restriction.scoped_compile {sig : Signature} {r : Restriction} {r' : ProtocolProver.Restriction}
    (h : r.compile sig = .ok r') : r'.nnf.Scoped .indexed .closed := by
  obtain ⟨F, hF, h⟩ := bind_eq_ok h
  have h := mapError_eq_ok h
  unfold ProtocolProver.Restriction.build at h
  split at h
  · rename_i nnf hnnf
    cases h
    exact (ProtocolProver.Formula.scoped_toNnf (Formula.idx_binders (mapError_eq_ok hF))
      (fun _ _ => trivial) hnnf).2
  · cases h

namespace Compiles

variable {src : Model} {pack : Pack} {sig : Signature} {rs : List ProtocolProver.Rule}
  {m : ProtocolProver.Model}

/-- A compiled model without algebraic operators and destructors is plain. -/
theorem plain (h : Compiles src pack sig [] rs m) (halgebras : m.theory.algebras = {})
    (hplain : m.Has m.theory.plainShape)
    (hconditions : ∀ r ∈ m.rules, ∀ f, r.restrict = some f → f.QuantifierFree) : m.Plain := by
  have hstatic : ∀ r ∈ m.rules, ∀ f, r.restrict = some f → f.Static ∧
      ∀ x ∈ f.freeOccurrences, x ∈ r.vars := by
    intro r hr f hf
    rcases h.mem_rules hr with hr' | rfl
    · obtain ⟨r₀, -, hc⟩ := h.compiled r hr'
      obtain ⟨hscope, hvars⟩ := Rule.compile_condition hc hf
      exact ⟨(hconditions r hr f hf).static hscope fun _ h => h, hvars⟩
    · cases hf
  refine ⟨h.standard, Theory.free_of_algebras halgebras, ?_, ⟨fun r hr => ⟨hplain.rules r hr,
    h.regular.covers r hr, fun f hf => ?_⟩, fun r hr => ⟨?_, hplain.restrictions r hr⟩⟩, ?_,
    fun r hr f hf => (hstatic r hr f hf).1, fun r hr x hx => ?_, fun r hr x hx => ?_⟩
  · have hsig : m.theory.signature = sig := by rw [h.theory]
    exact Assembled.shallow (hsig ▸ h.assembled) (by rw [h.theory, List.append_nil])
  · obtain ⟨hf, hvars⟩ := hstatic r hr f hf
    exact hf.scoped (fun t ht x hx => hvars x (hf.mem_freeOccurrences.2 ⟨t, ht, hx⟩)) _
  · obtain ⟨r₀, -, hc⟩ := h.restrictions r hr
    exact Restriction.scoped_compile hc
  · intro r hr f hf hfresh
    rcases h.mem_rules hr with hr | rfl
    · exact (h.valid r hr).drawn f hf hfresh
    · rw [List.mem_singleton.1 hf] at hfresh
      exact absurd hfresh (by decide)
  · rcases h.mem_rules hr with hr | rfl
    · refine ((h.valid r hr).bound x hx).imp_right fun hx => ?_
      obtain ⟨f, hf, ht⟩ := mem_factOccurrences.1 (List.mem_eraseDups.1 hx)
      exact ⟨f, hf, ht⟩
    · revert x
      decide
  · rcases h.mem_rules hr with hr' | rfl
    · obtain ⟨r₀, -, hc⟩ := h.compiled r hr'
      have hidx : Writes ⟨fun x => x.idx = 0, fun _ => True, fun _ _ => True⟩ sig :=
        ⟨fun _ hx => hx, fun _ _ => trivial, fun _ => trivial⟩
      have hhas := (Rule.has_compile hidx hc).1
      rcases Rule.compile_vars hc hx with ⟨f, hf, t, ht, hx⟩ | ⟨f, hf, hx⟩
      · exact (hhas.facts hf t ht).var_of_mem hx
      · obtain ⟨t, ht, hx⟩ := (hstatic r hr f hf).1.mem_freeOccurrences.1 hx
        exact (hhas.restrict f hf t ht).var_of_mem hx
    · revert x
      decide

end Compiles

theorem Model.plain_of_compile {src : Model} {flags : SortedSet String} {c : Compiled}
    (hc : src.compile flags = .ok c) (hequations : src.equations = [])
    (halgebras : c.model.theory.algebras = {}) (hplain : c.model.Has c.model.theory.plainShape)
    (hconditions : ∀ r ∈ c.model.rules, ∀ f, r.restrict = some f → f.QuantifierFree) :
    c.model.Plain := by
  obtain ⟨pack, sig, es, rs, hcompiles⟩ := Model.compiles hc
  have hes := hcompiles.equations
  rw [hequations] at hes
  cases hes
  exact hcompiles.plain halgebras hplain hconditions

end Surface

end ProtocolProver
