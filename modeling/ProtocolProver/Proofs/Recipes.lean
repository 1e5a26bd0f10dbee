import ProtocolProver.Proofs.SaturatedKnowledge

/-!
# Recipes

A recipe is a way to compute a message: it applies public symbols to public names and to what was
observed. Every step of the adversary can be done by public symbols. Parts are put together by the
symbol at the root, and what a message releases comes of a destructor, of raising a power to the
inverse of a factor, of inverting once more or of adding the other summands again (`Releases.computes`).
So everything that is derivable has a recipe (`exists_recipe_of_derives`).
-/

namespace ProtocolProver

/-! ## Undoing a step -/

theorem Exponent.mul_inverse_factor {e f : Term} {rest : List Term} (he : Element e)
    (hp : (factors e).Perm (f :: rest)) : mul e (inverse f) = product rest := by
  have hfactor : Factor f := he.reduced.factor f (hp.mem_iff.2 (List.mem_cons_self ..))
  have hf : Element f := .of_factor hfactor
  have hrest : Reduced rest := he.reduced.subset fun x hx => hp.mem_iff.2 (List.mem_cons_of_mem f hx)
  refine (element_mul he hf.inverse).eq_of_net_eq (.of_reduced hrest) ?_
  rw [net_mul he hf.inverse, hf.net_inverse, hfactor.factors_eq, net_perm hp,
    net_perm (factors_product_perm hrest), ← List.singleton_append, net_append]
  abel

namespace Theory

/-! ## Recipes -/

/-- Terms of public symbols, public names and observed terms. -/
inductive Recipe (T : Theory) (ts : List Term) : Term → Prop
  | observed {t : Term} : t ∈ ts → T.Recipe ts t
  | pub (name : String) : T.Recipe ts (.name (.pub name))
  | app {f : Symbol} {as : List Term} : T.signature.isPublic f = true →
      as.length = T.signature.arity f → (∀ a ∈ as, T.Recipe ts a) → T.Recipe ts (.app f as)

/-- The term is the normal form of a recipe. -/
def Computes (T : Theory) (ts : List Term) (u : Term) : Prop := ∃ r, T.Recipe ts r ∧ T.normalize r = u

variable {T : Theory} {ts : List Term} {t u : Term}

theorem Computes.reduce {f : Symbol} {as : List Term} (hf : T.signature.isPublic f = true)
    (hlen : as.length = T.signature.arity f) (h : ∀ a ∈ as, T.Computes ts a) :
    T.Computes ts (T.reduce reductionLimit f as) := by
  choose! recipe hrecipe hnormalize using h
  refine ⟨.app f (as.map recipe), .app hf (by rwa [List.length_map])
    (List.forall_mem_map.2 hrecipe), ?_⟩
  rw [normalize_app, List.map_map]
  exact congrArg _ ((List.map_congr_left hnormalize).trans (List.map_id' as))

section Steps

variable (hT : T.OfPacks)

include hT

theorem Computes.reduce_builtin {f : Symbol} {as : List Term}
    (hf : f.index < Signature.builtin.size) (hlen : as.length = Signature.builtin.arity f)
    (h : ∀ a ∈ as, T.Computes ts a) : T.Computes ts (T.reduce reductionLimit f as) :=
  .reduce (hT.standard.isPublic_builtin hf) (by rw [hT.standard.arity_builtin hf, hlen]) h

theorem Destructs.computes {side : List Term} (h : T.Destructs t side u) (ht : T.Computes ts t)
    (hside : ∀ a ∈ side, T.Computes ts a) : T.Computes ts u := by
  obtain ⟨r, i, g, as, c, ps, θ, hopens, rfl, rfl, rfl⟩ := h
  obtain ⟨⟨g', as', hlhs, -, hlen, -⟩, -⟩ := hT.standard.rule r hopens.mem
  have hlhs' := hopens.lhs
  rw [hlhs] at hlhs'
  cases hlhs'
  have hreduce : T.reduce reductionLimit g (as.map (Term.mapVars θ)) = r.rhs.mapVars θ :=
    hT.standard.reduce_rule hopens.mem (by rw [hopens.lhs, Term.mapVars_app]) _
  refine hreduce ▸ .reduce hopens.isPublic (by rwa [List.length_map])
    (List.forall_mem_map.2 fun a ha => ?_)
  obtain ⟨j, hj⟩ := List.mem_iff_getElem?.1 ha
  by_cases hij : j = i
  · have harg := hopens.arg
    rw [← hij, hj, Option.some.injEq] at harg
    exact harg ▸ ht
  · exact hside _ (List.mem_map_of_mem (List.mem_eraseIdx_iff_getElem?.2 ⟨j, hij, hj⟩))

/-- What a message releases is computed from it. -/
theorem Releases.computes {side : List Term} (h : T.Releases t side u) (hmessage : T.Message t)
    (ht : T.Computes ts t) (hside : ∀ a ∈ side, T.Computes ts a) : T.Computes ts u := by
  cases h with
  | rule h => exact h.computes hT ht hside
  | @factor b e f rest ha hpick =>
    have howner : ∀ {g : Symbol}, Exponent.owns g = true →
        T.algebras.owner? g = some .exponents := Algebras.owner?_exponents ha
    obtain ⟨b', e', hbe, hb, hne⟩ := (hmessage.normal.exponent_root ha rfl).exp rfl
    cases hbe
    have he := (hmessage.args e (by simp)).normal.exponent ha
    have hf : Exponent.Element f := .of_factor (he.reduced.factor f (mem_picks hpick).1)
    have hinverse : T.Computes ts (T.reduce reductionLimit .inv [f]) :=
      .reduce_builtin hT (by decide) rfl hside
    have hpower : T.Computes ts
        (T.reduce reductionLimit .exp [.app .exp [b, e], T.reduce reductionLimit .inv [f]]) :=
      .reduce_builtin hT (by decide) rfl (by simp [ht, hinverse])
    rw [reduce_exponents (howner rfl), reduce_exponents (howner rfl)] at hpower
    have hraise : Exponent.power (.app .exp [b, e]) (Exponent.inverse f) =
        Exponent.raise b (Exponent.product rest) := by
      rw [← Exponent.mul_inverse_factor he (perm_of_mem_picks hpick),
        ← Exponent.power_raise hb he hf.inverse, Exponent.raise, if_neg hne]
    exact hraise ▸ hpower
  | inverse ha =>
    have hinverse : T.Computes ts (T.reduce reductionLimit .inv [.app .inv [u]]) :=
      .reduce_builtin hT (by decide) rfl (List.forall_mem_singleton.2 ht)
    rw [reduce_exponents (Algebras.owner?_exponents ha rfl)] at hinverse
    exact (Exponent.inverse_inv u).symm ▸ hinverse
  | @summand _ as rest hx hpick =>
    have hadd : T.Computes ts (T.reduce reductionLimit .xor [.app .xor as, ExclusiveOr.sum rest]) :=
      .reduce_builtin hT (by decide) rfl (List.forall_mem_cons.2 ⟨ht, hside⟩)
    rw [Theory.reduce_xor (Algebras.owner?_xor hx rfl)] at hadd
    exact (ExclusiveOr.add_others (hmessage.normal.sum hx) (perm_of_mem_picks hpick)) ▸ hadd

end Steps

end Theory

namespace Knowledge

variable {T : Theory} {K : Knowledge} {ts : List Term}

theorem computes_of_derivable (hT : T.OfPacks) (hK : ∀ t, K.contains t = true → T.Computes ts t)
    {n : Nat} {t : Term} (ht : T.Message t) (h : K.derivable T n t = true) : T.Computes ts t :=
  derivable_induction hT.standard hK (fun name => ⟨_, .pub name, rfl⟩)
    (fun _ _ hf hlen has => .reduce hf hlen fun a ha => (has a ha).2) ht h

theorem computes_of_contains (hT : T.OfPacks) (hts : ∀ t ∈ ts, T.Message (T.normalize t)) :
    ∀ u, (learnAll T ts).contains u = true → T.Computes ts u := by
  refine (forall_contains_learnAll hT hts (fun t ht => ⟨t, .observed ht, rfl⟩)
    fun K u hmessages hK hu => ?_).2
  obtain ⟨t, ht, side, hreleases, hside⟩ := hu
  have hsides := (hreleases.message hT (hmessages t ht)).2
  exact hreleases.computes hT (hmessages t ht) (hK t ht) fun a ha =>
    computes_of_derivable hT hK (hsides a ha) (hside a ha)

end Knowledge

/-- The adversary invents nothing: what it derives after some observations is computed from them by
public symbols. The terms respect the arities (`Theory.Flat`), as compilation checks. -/
theorem exists_recipe_of_derives {pack : Pack} {sig : Signature} {T : Theory}
    (hp : Assembled pack sig) (hT : Theory.ofRules sig pack.equations pack.algebras = .ok T)
    {ts : List Term} (hts : ∀ t ∈ ts, T.Flat t ∧ t.isGround = true) {t : Term} (ht : T.Flat t)
    (hground : t.isGround = true)
    (h : (ts.foldl (fun K t => K.learn T t) ({} : Knowledge)).derives T t = true) :
    ∃ r, T.Recipe ts r ∧ T.normalize r = T.normalize t := by
  have hpacks := hp.ofPacks hT
  have hmessages : ∀ t ∈ ts, T.Message (T.normalize t) := fun t ht =>
    hpacks.standard.message_normalize (hts t ht).1 (hts t ht).2
  exact Knowledge.computes_of_derivable hpacks (Knowledge.computes_of_contains hpacks hmessages)
    (hpacks.standard.message_normalize ht hground) h

/-- A message under a key that is a power, a power with one more factor, and this factor. -/
def sealedObservations : List Term :=
  let k : Term := .name (.fresh "k" 0)
  let x : Term := .name (.fresh "x" 1)
  [.app ⟨10⟩ [.name (.fresh "m" 2), .app .exp [.pubName "g", x]],
    .app .exp [.pubName "g", .app .mult [k, x]], k]

theorem exists_recipe_of_derives_sealed :
    let m : Term := .name (.fresh "m" 2)
    (sealedObservations.foldl (fun K t => K.learn agreementTheory t)
        ({} : Knowledge)).derives agreementTheory m = true ∧
      ∃ r, agreementTheory.Recipe sealedObservations r ∧
        agreementTheory.normalize r = agreementTheory.normalize m := by
  intro m
  have hflat : ∀ t ∈ sealedObservations, agreementTheory.Flat t ∧ t.isGround = true := by
    decide
  have hderives : (sealedObservations.foldl (fun K t => K.learn agreementTheory t)
      ({} : Knowledge)).derives agreementTheory m = true := by decide +kernel
  exact ⟨hderives, exists_recipe_of_derives assembled_agreement rfl hflat (.name trivial) rfl hderives⟩

end ProtocolProver
