import ProtocolProver.Proofs.FreeUnification

/-!
# Ground terms in normal form

The terms of a trace are ground and nothing in them can be reduced. In a theory without algebras
these are closed under subterms, whatever the number of arguments of their symbols.
-/

namespace ProtocolProver

namespace Theory

/-- No symbol belongs to an algebra. -/
def Free (T : Theory) : Prop := ∀ f, T.algebras.owner? f = none

/-- The ground terms in which nothing can be reduced. -/
inductive Value (T : Theory) : Term → Prop
  | name (n : Name) : T.Value (.name n)
  | app {f : Symbol} {as : List Term} : (∀ a ∈ as, T.Value a) →
      contractRoot? T.rules (.app f as) = none → T.Value (.app f as)

variable {T : Theory} {t : Term}

theorem free_of_algebras (h : T.algebras = {}) : T.Free := fun f => by
  rw [h]
  rfl

namespace Value

theorem args {f : Symbol} {as : List Term} (h : T.Value (.app f as)) : ∀ a ∈ as, T.Value a := by
  cases h
  assumption

theorem mapVars (h : T.Value t) (θ : Var → Term) : t.mapVars θ = t := by
  induction h with
  | name => rfl
  | app _ _ ih => rw [Term.mapVars_app, List.map_congr_left ih, List.map_id']

theorem occurrences (h : T.Value t) : t.occurrences = [] := by
  induction h with
  | name => rfl
  | app _ _ ih =>
    refine List.eq_nil_iff_forall_not_mem.2 fun x hx => ?_
    obtain ⟨a, ha, hx⟩ := Term.mem_occurrences_app.1 hx
    rw [ih a ha] at hx
    cases hx

theorem of_mapVars {θ : Var → Term} (h : T.Value (t.mapVars θ)) :
    ∀ x ∈ t.occurrences, T.Value (θ x) := Term.of_mapVars (fun _ _ => args) h

theorem breadthFirst : ∀ {n : Nat} {queue : List Term}, (∀ t ∈ queue, T.Value t) →
    ∀ t ∈ Term.breadthFirst n queue, T.Value t
  | 0, _, _ => nofun
  | _ + 1, [], _ => nofun
  | n + 1, t :: queue, h => by
    obtain ⟨ht, hqueue⟩ := List.forall_mem_cons.1 h
    refine List.forall_mem_cons.2 ⟨ht, breadthFirst (List.forall_mem_append.2 ⟨hqueue, ?_⟩)⟩
    cases ht with
    | name => exact nofun
    | app has _ => exact has

theorem subterms (h : T.Value t) : ∀ u ∈ t.subterms, T.Value u :=
  breadthFirst (List.forall_mem_singleton.2 h)

variable (hfree : T.Free)
include hfree

theorem reduce {f : Symbol} {as : List Term} (h : T.Value (.app f as)) (n : Nat) :
    T.reduce n f as = .app f as := by
  cases h with
  | app _ hnone => cases n <;> simp only [Theory.reduce, hfree f, hnone]

theorem normalize (h : T.Value t) : T.normalize t = t := by
  induction h with
  | name => rfl
  | @app f as has hnone ih =>
    have hmap : as.map T.normalize = as := by rw [List.map_congr_left ih, List.map_id']
    calc T.normalize (.app f as) = T.reduce reductionLimit f (as.map T.normalize) :=
          Term.eval_app ..
      _ = .app f as := by rw [hmap, (Value.app has hnone).reduce hfree]

end Value

/-- The terms in which nothing can be reduced. -/
inductive Irreducible (T : Theory) : Term → Prop
  | var (v : Var) : T.Irreducible (.var v)
  | name (n : Name) : T.Irreducible (.name n)
  | app {f : Symbol} {as : List Term} : (∀ a ∈ as, T.Irreducible a) →
      contractRoot? T.rules (.app f as) = none → T.Irreducible (.app f as)

theorem Irreducible.args {f : Symbol} {as : List Term} (h : T.Irreducible (.app f as)) :
    ∀ a ∈ as, T.Irreducible a := by
  cases h
  assumption

theorem Irreducible.of_mapVars {θ : Var → Term} (h : T.Irreducible (t.mapVars θ)) :
    ∀ x ∈ t.occurrences, T.Irreducible (θ x) := Term.of_mapVars (fun _ _ => args) h

theorem Irreducible.value (h : T.Irreducible t) (hg : t.isGround = true) : T.Value t := by
  induction h with
  | var => cases hg
  | name n => exact .name n
  | app _ hnone ih =>
    rw [Term.isGround, Term.isGroundList_eq, List.all_eq_true] at hg
    exact .app (fun a ha => ih a ha (hg a ha)) hnone

theorem Standard.irreducible_normalize (hT : T.Standard) (hfree : T.Free) (t : Term) :
    T.Irreducible (T.normalize t) := by
  induction t using Term.induction_args with
  | var v => exact .var v
  | name n => exact .name n
  | app f as ih =>
    rw [Theory.normalize, Term.eval_app]
    have has : ∀ a ∈ as.map T.normalize, T.Irreducible a := List.forall_mem_map.2 ih
    rcases hT.reduce_cases (hfree f) (as.map T.normalize) 99999 with
      ⟨r, hr, θ, hl, he⟩ | ⟨hnone, he⟩
    · -- A rule contracts to a part of the arguments or to a constant.
      refine he ▸ ?_
      obtain ⟨⟨g, ps, hlhs, -, -, -⟩, hrhs⟩ := hT.rule r hr
      rcases hrhs with ⟨v, hv, hrhs⟩ | ⟨c, hrhs, hc, -⟩
      · rw [hlhs, Term.mapVars_app] at hl
        injection hl with _ hps
        rw [hlhs] at hv
        obtain ⟨p, hp, hv⟩ := Term.mem_occurrences_app.1 hv
        rw [hrhs]
        exact (has _ (hps ▸ List.mem_map_of_mem hp)).of_mapVars v hv
      · rw [hrhs]
        exact .app (List.forall_mem_nil _) (hc.contractRoot? _)
    · exact he ▸ .app has hnone

theorem Standard.value_of_isGround (hT : T.Standard) (hfree : T.Free)
    (h : (T.normalize t).isGround = true) : T.Value (T.normalize t) :=
  (hT.irreducible_normalize hfree t).value h

end Theory

/-! ## Subterms -/

namespace Term

theorem sizeList_append (as bs : List Term) : sizeList (as ++ bs) = sizeList as + sizeList bs := by
  induction as with
  | nil => simp [sizeList]
  | cons a as ih => simp [sizeList, ih, Nat.add_assoc]

theorem sizeList_args_lt (t : Term) : sizeList t.args < t.size := by
  cases t <;> simp [args, size, sizeList]

theorem breadthFirst_spec : ∀ {n : Nat} {queue : List Term}, sizeList queue ≤ n →
    (∀ t ∈ queue, t ∈ breadthFirst n queue) ∧
      ∀ f as, app f as ∈ breadthFirst n queue → ∀ a ∈ as, a ∈ breadthFirst n queue
  | _, [], _ => by cases ‹Nat› <;> exact ⟨nofun, nofun⟩
  | 0, t :: queue, h => by
    rw [sizeList] at h
    have := t.size_pos
    omega
  | n + 1, t :: queue, h => by
    have hsize : sizeList (queue ++ t.args) ≤ n := by
      have := t.sizeList_args_lt
      rw [sizeList] at h
      rw [sizeList_append]
      omega
    obtain ⟨hmem, hclosed⟩ := breadthFirst_spec hsize
    obtain ⟨hqueue, hargs⟩ := List.forall_mem_append.1 hmem
    rw [breadthFirst]
    refine ⟨List.forall_mem_cons.2 ⟨List.mem_cons_self .., fun u hu =>
      List.mem_cons_of_mem _ (hqueue u hu)⟩, fun f as hf a ha => List.mem_cons_of_mem _ ?_⟩
    rcases List.mem_cons.1 hf with rfl | hf
    · exact hargs a ha
    · exact hclosed f as hf a ha

theorem mem_subterms_self (t : Term) : t ∈ t.subterms :=
  (breadthFirst_spec (by simp [sizeList])).1 t (List.mem_singleton.2 rfl)

theorem args_mem_subterms {t : Term} {f : Symbol} {as : List Term} (h : app f as ∈ t.subterms) :
    ∀ a ∈ as, a ∈ t.subterms := (breadthFirst_spec (by simp [sizeList])).2 f as h

end Term

end ProtocolProver
