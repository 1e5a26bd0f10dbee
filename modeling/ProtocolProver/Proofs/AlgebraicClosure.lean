import ProtocolProver.Proofs.CancelledParts
import ProtocolProver.Proofs.ConstructionLevels
import ProtocolProver.Proofs.DolevYao

/-!
# Closure under the algebraic operations

Where nothing cancels, the result of an operation on derivable messages is split in these messages, so
it is derivable as far as it is split at all (`makes_append`, `makes_raise`). What cancels must be
undone by deconstruction, and this takes one part away at a time: a known power loses factors of its
exponent that are derivable (`contains_raise`), and a sum releases a summand if the others are derivable
(`makes_summands`, `makes_rest`). Nothing is taken out of a product.
-/

namespace ProtocolProver

namespace Theory

variable {T : Theory}

theorem Message.power (ha : T.algebras.exponents = true) {t : Term} (h : T.Message t) :
    ∃ b e, b.head? ≠ some .exp ∧ T.Message b ∧ T.Message e ∧ t = Exponent.raise b e := by
  obtain ⟨b, e, hb, hbn, hen, rfl⟩ := h.normal.power ha
  have hground := h.ground
  by_cases he : e = .const .one
  · rw [Exponent.raise, if_pos he] at hground
    exact ⟨b, e, hb, ⟨hbn, hground⟩, ⟨hen, by rw [he]; rfl⟩, rfl⟩
  · rw [Exponent.raise, if_neg he, Term.isGround_app] at hground
    exact ⟨b, e, hb, ⟨hbn, hground b (by simp)⟩, ⟨hen, hground e (by simp)⟩, rfl⟩

theorem Message.mul (ha : T.algebras.exponents = true) {s t : Term} (hs : T.Message s)
    (ht : T.Message t) : T.Message (Exponent.mul s t) := by
  have hmul := Exponent.element_mul (hs.normal.exponent ha) (ht.normal.exponent ha)
  have hmem := Exponent.mem_factors_mul (hs.normal.exponent ha) (ht.normal.exponent ha)
  rw [← hmul.product_factors]
  exact .product ha hmul.reduced fun x hx =>
    List.forall_mem_append.2 ⟨hs.factors, ht.factors⟩ x (hmem x hx)

theorem Message.exponents (ha : T.algebras.exponents = true) {t : Term} (h : T.Message t) :
    ∀ x ∈ Exponent.exponents t, T.Message x := by
  obtain ⟨b, e, hb, -, he, rfl⟩ := h.power ha
  rw [Exponent.exponents_raise hb]
  exact he.factors

theorem levels_part_le {f : Symbol} {unit : Term} {ts us l : List Term} (hf : T.isAssoc f = true)
    (hp : (ts ++ us).Perm l) (hts : ts ≠ []) :
    T.levels (flatForm f unit ts) ≤ T.levels (flatForm f unit l) := by
  have hl : l ≠ [] := fun hnil => hts (List.append_eq_nil_iff.1 (hnil ▸ hp).eq_nil).1
  rw [levels_flatForm hf hts, levels_flatForm hf hl, ← height_perm (hp.map _), List.map_append]
  exact height_append_left ..

theorem Message.levels_factors_le (ha : T.algebras.exponents = true) {t : Term} (h : T.Message t) :
    ∀ x ∈ Exponent.factors t, T.levels x ≤ T.levels t := by
  rcases h.normal.factor_or ha with hfactor | rfl | ⟨as, rfl⟩
  · rw [hfactor.factors_eq, List.forall_mem_singleton]
  · exact List.forall_mem_nil _
  · intro x hx
    rw [Exponent.factors, if_pos rfl] at hx
    rw [levels_assoc (associates_mult ha).assoc]
    exact le_height (List.mem_map_of_mem hx)

theorem Message.levels_exponents_le (ha : T.algebras.exponents = true) {t : Term} (h : T.Message t) :
    ∀ x ∈ Exponent.exponents t, T.levels x ≤ T.levels t := by
  intro x hx
  obtain ⟨b, e, hb, -, he, rfl⟩ := h.power ha
  rw [Exponent.exponents_raise hb] at hx
  by_cases hone : e = .const .one
  · rw [hone] at hx
    cases hx
  · rw [Exponent.raise, if_neg hone, levels_exp ha]
    split_ifs
    · exact le_height (List.mem_cons_of_mem _ (List.mem_map_of_mem hx))
    · have hle := he.levels_factors_le ha x hx
      omega

/-- The normal form has no more levels than construction, and not too many parts to be split. -/
def Within (T : Theory) (parts : Term → List Term) (t : Term) : Prop :=
  T.levels (T.normalize t) ≤ Knowledge.maxConstructionDepth ∧
    (parts (T.normalize t)).length ≤ maxBipartition

end Theory

namespace Knowledge

variable {K : Knowledge} {T : Theory} {s t : Term}

theorem derivable_of_derives (ht : T.Message t) (h : K.derives T t = true) :
    K.derivable T maxConstructionDepth t = true := by
  rwa [derives, ht.normal.normalize] at h

theorem makes_of_derives (ht : T.Message t) (h : K.derives T t = true) : K.Makes T t :=
  ⟨_, derivable_of_derives ht h⟩

/-- What a message has and another has not can be derived alone: no summands are common, or all. Or else
the message is known and one summand is left when the others, whose sum is derivable, are taken away.
Or else all summands are derivable but at most one. -/
def Keeps (K : Knowledge) (T : Theory) (s t : Term) : Prop :=
  ExclusiveOr.common s t = [] ∨ ExclusiveOr.rest s t = [] ∨
    (K.contains s = true ∧ (ExclusiveOr.rest s t).length = 1 ∧
      K.derives T (ExclusiveOr.sum (ExclusiveOr.common s t)) = true) ∨
    (ExclusiveOr.summands s).length ≤ maxBipartition ∧
      ∃ a, ∀ x ∈ ExclusiveOr.summands s, x ≠ a → K.derives T x = true

/-- No factors cancel, or all that are left are derivable. -/
def Multiplies (K : Knowledge) (T : Theory) (s t : Term) : Prop :=
  (∀ x ∈ Exponent.factors t, Exponent.inverse x ∉ Exponent.factors s) ∨
    ∀ x ∈ Exponent.factors (Exponent.mul s t), K.derives T x = true

/-- The message is no product, or all factors are derivable. -/
def Inverts (K : Knowledge) (T : Theory) (s : Term) : Prop :=
  s.head? ≠ some .mult ∨ ∀ x ∈ Exponent.factors s, K.derives T x = true

/-- The base is no power. Or else no factors cancel in the exponent, and it is not too long to be split
as an exponent, or as a product if base and exponent are derivable. Or else the power is known and all
factors it is raised to are derivable. Or else all factors of its exponent are derivable, before and
after. -/
def Raises (K : Knowledge) (T : Theory) (s t : Term) : Prop :=
  let exponents := Exponent.exponents (Exponent.power s t)
  Exponent.exponents s = [] ∨
    (∀ x ∈ Exponent.factors t, Exponent.inverse x ∉ Exponent.exponents s) ∧
      (exponents.length ≤ Exponent.maxSplitFactors ∨ exponents.length ≤ maxBipartition ∧
        ∃ b e, s = .app .exp [b, e] ∧ K.derives T b = true ∧ K.derives T e = true) ∨
    K.contains s = true ∧ exponents.length ≤ Exponent.maxSplitFactors ∧
      (∀ x ∈ Exponent.factors t, K.derives T x = true) ∨
    exponents.length ≤ maxBipartition ∧ (∀ x ∈ Exponent.exponents s, K.derives T x = true) ∧
      ∀ x ∈ exponents, K.derives T x = true

section Exponents

variable (ha : T.algebras.exponents = true)

include ha

theorem makes_one : K.Makes T (.const .one) := by
  have hmem : [] ∈ T.decompose (.app .one []) := by
    rw [Theory.decompose, Algebras.owner?_exponents ha rfl]
    exact List.mem_singleton_self _
  exact makes_of_parts hmem (List.forall_mem_nil _)

theorem makes_product {l : List Term} (hr : Exponent.Reduced l) (hlen : l.length ≤ maxBipartition)
    (h : ∀ x ∈ l, K.Makes T x) : K.Makes T (Exponent.product l) := by
  rw [Exponent.product_eq]
  exact makes_flatForm (Theory.associates_mult ha) (makes_one ha) hr hlen h

theorem makes_mul (hs : T.Message s) (ht : T.Message t) (hms : K.Makes T s) (hmt : K.Makes T t)
    (hlen : (Exponent.factors (Exponent.mul s t)).length ≤ maxBipartition)
    (h : ∀ x ∈ Exponent.factors t, Exponent.inverse x ∉ Exponent.factors s) :
    K.Makes T (Exponent.mul s t) := by
  have hes := hs.normal.exponent ha
  have het := ht.normal.exponent ha
  have hr := hes.reduced.append het.reduced h
  rw [Exponent.mul_eq_product hes het hr] at hlen ⊢
  rw [(Exponent.factors_product_perm hr).length_eq] at hlen
  rw [← hes.product_factors, Exponent.product_eq] at hms
  rw [← het.product_factors, Exponent.product_eq] at hmt
  rw [Exponent.product_eq]
  exact makes_append (Theory.associates_mult ha) hr hlen hms hmt

theorem makes_of_factors (ht : T.Message t) (hlen : (Exponent.factors t).length ≤ maxBipartition)
    (h : ∀ x ∈ Exponent.factors t, K.Makes T x) : K.Makes T t := by
  have helement := ht.normal.exponent ha
  rw [← helement.product_factors]
  exact makes_product ha helement.reduced hlen h

theorem makes_raise_base {b e : Term} (h : K.Makes T b) (he : K.Makes T e) :
    K.Makes T (Exponent.raise b e) := by
  by_cases hone : e = .const .one
  · rwa [Exponent.raise, if_pos hone]
  · rw [Exponent.raise, if_neg hone]
    refine makes_of_parts (Theory.mem_decompose_exp ha) ?_
    rw [List.forall_mem_cons, List.forall_mem_singleton]
    exact ⟨h, he⟩

/-- A power of a base and two lists of factors is split between the lists. -/
theorem makes_raise {b : Term} {ts us : List Term} (hr : Exponent.Reduced (ts ++ us))
    (hlen : ts = [] ∨ (ts ++ us).length ≤ Exponent.maxSplitFactors)
    (hts : K.Makes T (Exponent.raise b (Exponent.product ts)))
    (hus : K.Makes T (Exponent.product us)) :
    K.Makes T (Exponent.raise b (Exponent.product (ts ++ us))) := by
  by_cases hunil : us = []
  · rwa [hunil, List.append_nil]
  obtain ⟨m, hm⟩ := hts
  obtain ⟨n, hn⟩ := hus
  exact ⟨max m n + 1, derivable_raise ha hr hunil hlen (derivable_le hm (Nat.le_max_left ..))
    (derivable_le hn (Nat.le_max_right ..))⟩

section Saturated

variable (hT : T.Standard) (hK : K.Saturated T)

include hT hK

theorem makes_of_inv {a : Term} (hm : T.Message (.app .inv [a])) (h : K.Makes T (.app .inv [a])) :
    K.Makes T a := by
  refine Makes.induction (P := fun t => ∀ a, t = .app .inv [a] → K.Makes T a) hT ?_ ?_ ?_ hm h a rfl
  · rintro t - hc a rfl
    exact makes_of_contains (hK _ _ hc ⟨[], .inverse ha, List.forall_mem_nil _⟩)
  · rintro name a ⟨⟩
  · rintro f as parts - hsplits hall a ⟨⟩
    cases hsplits with
    | args => exact (hall a (List.mem_singleton_self a)).2.1

theorem makes_inverse_factor {x : Term} (hx : Exponent.Factor x) (hm : T.Message x)
    (h : K.Makes T x) : K.Makes T (Exponent.inverse x) := by
  rcases hx with hp | ⟨b, -, rfl⟩
  · rw [hp.inverse_eq]
    have hmem : [x] ∈ T.decompose (.app .inv [x]) := by
      rw [Theory.decompose, Algebras.owner?_exponents ha rfl]
      exact List.mem_singleton_self _
    exact makes_of_parts hmem (List.forall_mem_singleton.2 h)
  · rw [Exponent.inverse_inv]
    exact makes_of_inv ha hT hK hm h

theorem makes_inverse (hs : T.Message s) (hlen : (Exponent.factors s).length ≤ maxBipartition)
    (h : ∀ x ∈ Exponent.factors s, K.Makes T x) : K.Makes T (Exponent.inverse s) := by
  have hes := hs.normal.exponent ha
  rw [hes.inverse_eq]
  refine makes_product ha hes.reduced.map_inverse (by rwa [List.length_map]) ?_
  exact List.forall_mem_map.2 fun x hx =>
    makes_inverse_factor ha hT hK (hes.reduced.factor x hx) (hs.factors x hx) (h x hx)

omit hT in
/-- A known power loses the factors of its exponent that are derivable. -/
theorem contains_raise {b : Term} : ∀ {ts us : List Term}, Exponent.Reduced (ts ++ us) →
    (∀ x ∈ ts, K.derivable T maxConstructionDepth x = true) →
      K.contains (Exponent.raise b (Exponent.product (ts ++ us))) = true →
        K.contains (Exponent.raise b (Exponent.product us)) = true
  | [], _, _, _, h => h
  | x :: ts, us, hr, hts, h => by
    obtain ⟨hx, hts⟩ := List.forall_mem_cons.1 hts
    have hfactors := Exponent.factors_product_perm hr
    obtain ⟨rest, hpick⟩ := exists_mem_picks (hfactors.mem_iff.2 (List.mem_cons_self ..))
    have hrest : rest.Perm (ts ++ us) := ((perm_of_mem_picks hpick).symm.trans hfactors).cons_inv
    rw [Exponent.raise_product hr (List.cons_ne_nil _ _)] at h
    have hreleased := hK _ _ h ⟨[x], .factor ha hpick, List.forall_mem_singleton.2 hx⟩
    rw [Exponent.product_eq_of_perm hrest] at hreleased
    exact contains_raise (hr.subset fun y => List.mem_cons_of_mem x) hts hreleased

/-- The base of a power is derivable if the power and the factors of its exponent are. -/
theorem makes_base {b e : Term} (hm : T.Message (.app .exp [b, e]))
    (h : K.Makes T (.app .exp [b, e]))
    (hfactors : ∀ x ∈ Exponent.factors e, K.derivable T maxConstructionDepth x = true) :
    K.Makes T b := by
  obtain ⟨ts, us, hp, hbase, -⟩ := coversPower_of_makes ha hT hm h
  rcases hbase with hc | ⟨-, hb⟩
  · have hr := ((hm.args e (by simp)).normal.exponent ha).reduced
    have hsub := (Theory.perm_append_subset hp).1
    rw [← List.append_nil ts] at hc
    exact makes_of_contains (contains_raise ha hK (by rw [List.append_nil]; exact hr.subset hsub)
      (fun x hx => hfactors x (hsub x hx)) hc)
  · exact hb

end Saturated

theorem makes_power_apart (hs : T.Message s) (ht : T.Message t) (hms : K.Makes T s)
    (hmt : K.Makes T t)
    (hlen : Exponent.exponents s = [] ∨
      (Exponent.exponents (Exponent.power s t)).length ≤ Exponent.maxSplitFactors)
    (h : ∀ x ∈ Exponent.factors t, Exponent.inverse x ∉ Exponent.exponents s) :
    K.Makes T (Exponent.power s t) := by
  obtain ⟨b, e, hb, -, hme, rfl⟩ := hs.power ha
  have he := hme.normal.exponent ha
  have het := ht.normal.exponent ha
  rw [Exponent.exponents_raise hb] at h hlen
  have hr := he.reduced.append het.reduced h
  rw [Exponent.power_raise hb he het, Exponent.mul_eq_product he het hr] at hlen ⊢
  rw [Exponent.exponents_raise hb, (Exponent.factors_product_perm hr).length_eq] at hlen
  refine makes_raise ha hr hlen ?_ ?_
  · rwa [he.product_factors]
  · rwa [het.product_factors]

theorem makes_power_split {b e : Term} (hs : T.Message (.app .exp [b, e])) (ht : T.Message t)
    (hb : K.Makes T b) (he : K.Makes T e) (hmt : K.Makes T t)
    (hlen : (Exponent.exponents (Exponent.power (.app .exp [b, e]) t)).length ≤ maxBipartition)
    (h : ∀ x ∈ Exponent.factors t, Exponent.inverse x ∉ Exponent.factors e) :
    K.Makes T (Exponent.power (.app .exp [b, e]) t) := by
  obtain ⟨b', e', hbe, hbase, hne⟩ := (hs.normal.exponent_root ha rfl).exp rfl
  cases hbe
  have hme := hs.args e (by simp)
  have hpower : Exponent.power (.app .exp [b, e]) t = Exponent.raise b (Exponent.mul e t) := by
    rw [← Exponent.power_raise hbase (hme.normal.exponent ha) (ht.normal.exponent ha),
      Exponent.raise, if_neg hne]
  rw [hpower] at hlen ⊢
  rw [Exponent.exponents_raise hbase] at hlen
  exact makes_raise_base ha hb (makes_mul ha hme ht he hmt hlen h)

section Saturated

variable (hT : T.Standard) (hK : K.Saturated T)

include hT hK

/-- A power of a known message: it loses the factors that cancel. -/
theorem makes_power_known (hs : T.Message s) (ht : T.Message t)
    (hlevels : T.levels s ≤ maxConstructionDepth) (hc : K.contains s = true)
    (hlen : (Exponent.exponents (Exponent.power s t)).length ≤ Exponent.maxSplitFactors)
    (h : ∀ x ∈ Exponent.factors t, K.Makes T x) : K.Makes T (Exponent.power s t) := by
  have hexponents := hs.levels_exponents_le ha
  obtain ⟨b, e, hb, hmb, hme, rfl⟩ := hs.power ha
  have he := hme.normal.exponent ha
  have het := ht.normal.exponent ha
  obtain ⟨cs, ts', us', hp, hq, hr⟩ := Exponent.exists_cancelled he.reduced het.reduced
  have hus : ∀ x ∈ us', x ∈ Exponent.factors t := fun x hx =>
    hq.mem_iff.2 (List.mem_append_right _ hx)
  have hcs : ∀ c ∈ cs, K.derivable T maxConstructionDepth c = true := by
    intro c hc
    have hmem := hp.mem_iff.2 (List.mem_append_left ts' hc)
    have hfactor := he.reduced.factor c hmem
    have hinverse := hq.mem_iff.2 (List.mem_append_left us' (List.mem_map_of_mem hc))
    have hmade := makes_inverse_factor ha hT hK hfactor.inverse (ht.factors _ hinverse)
      (h _ hinverse)
    rw [hfactor.inverse_inverse] at hmade
    exact hmade.derivable hT (hme.factors c hmem)
      ((hexponents c (by rwa [Exponent.exponents_raise hb])).trans hlevels)
  have hknown : K.contains (Exponent.raise b (Exponent.product ts')) = true := by
    refine contains_raise ha hK (he.reduced.of_perm hp.symm) hcs ?_
    rwa [Exponent.product_eq_of_perm hp.symm, he.product_factors]
  rw [Exponent.power_raise hb he het, Exponent.mul_eq_of_cancelled he het hp hq hr] at hlen ⊢
  rw [Exponent.exponents_raise hb, (Exponent.factors_product_perm hr).length_eq] at hlen
  have hfew : us'.length ≤ maxBipartition := by
    rw [List.length_append] at hlen
    exact (Nat.le_of_add_left_le hlen).trans (by decide)
  exact makes_raise ha hr (.inr hlen) (makes_of_contains hknown)
    (makes_product ha (hr.subset fun x => List.mem_append_right _) hfew fun x hx => h x (hus x hx))

theorem makes_power_factors (hs : T.Message s) (ht : T.Message t) (hms : K.Makes T s)
    (hlevels : T.levels s ≤ maxConstructionDepth)
    (hlen : (Exponent.exponents (Exponent.power s t)).length ≤ maxBipartition)
    (hold : ∀ x ∈ Exponent.exponents s, K.Makes T x)
    (hnew : ∀ x ∈ Exponent.exponents (Exponent.power s t), K.Makes T x) :
    K.Makes T (Exponent.power s t) := by
  have hexponents := hs.levels_exponents_le ha
  have hmessages := hs.exponents ha
  obtain ⟨b, e, hb, hmb, hme, rfl⟩ := hs.power ha
  rw [Exponent.power_raise hb (hme.normal.exponent ha) (ht.normal.exponent ha)] at hlen hnew ⊢
  rw [Exponent.exponents_raise hb] at hlen hnew hold hexponents hmessages
  have hbase : K.Makes T b := by
    by_cases hone : e = .const .one
    · rwa [hone, Exponent.raise, if_pos rfl] at hms
    · rw [Exponent.raise, if_neg hone] at hms hs hexponents hlevels
      exact makes_base ha hT hK hs hms fun x hx => (hold x hx).derivable hT (hmessages x hx)
        ((hexponents x hx).trans hlevels)
  exact makes_raise_base ha hbase (makes_of_factors ha (hme.mul ha ht) hlen hnew)

end Saturated

end Exponents

section Sums

variable (hx : T.algebras.xor = true)

include hx

theorem makes_zero : K.Makes T (.const .zero) := by
  have hmem : [] ∈ T.decompose (.app .zero []) := by
    rw [Theory.decompose, Algebras.owner?_xor hx rfl]
    exact List.mem_singleton_self _
  exact makes_of_parts hmem (List.forall_mem_nil _)

variable (hK : K.Saturated T)

include hK

/-- A known sum releases a summand if the sum of the others is derivable. -/
theorem contains_summand {l cs : List Term} {a : Term} (hr : ExclusiveOr.Reduced l)
    (hp : l.Perm (a :: cs)) (h : K.contains (flatForm .xor (.const .zero) l) = true)
    (hcs : cs ≠ [] →
      K.derivable T maxConstructionDepth (flatForm .xor (.const .zero) cs) = true) :
    K.contains a = true := by
  by_cases hnil : cs = []
  · rw [hnil] at hp
    rwa [hp.eq_singleton] at h
  have hlength := hp.length_eq
  have hpos := List.length_pos_iff.2 hnil
  rw [List.length_cons] at hlength
  rw [flatForm_of_two_le (by omega)] at h
  have hsort := (sortTerms_perm l).trans hp
  obtain ⟨rest, hpick⟩ := exists_mem_picks (hsort.mem_iff.2 (List.mem_cons_self ..))
  have hrest : rest.Perm cs := ((perm_of_mem_picks hpick).symm.trans hsort).cons_inv
  have hreduced : ExclusiveOr.Reduced rest :=
    (hr.subperm ((List.perm_append_singleton a cs).trans hp.symm)).of_perm hrest
  refine hK _ _ h ⟨_, .summand hx hpick, List.forall_mem_singleton.2 ?_⟩
  rw [hreduced.sum_eq, flatForm_eq_of_perm hrest]
  exact hcs hnil

variable (hT : T.Standard)

include hT

/-- All summands of a derivable message are derivable if all but one are. -/
theorem makes_summands (hs : T.Message s) (hms : K.Makes T s)
    (hlen : (ExclusiveOr.summands s).length ≤ maxBipartition)
    (hlevels : T.levels s ≤ maxConstructionDepth) {a : Term}
    (hothers : ∀ x ∈ ExclusiveOr.summands s, x ≠ a → K.Makes T x) :
    ∀ x ∈ ExclusiveOr.summands s, K.Makes T x := by
  intro x hmem
  by_cases hxa : x = a
  swap
  · exact hothers x hmem hxa
  rw [← hxa] at hothers
  have hes := hs.normal.sum hx
  have hmessages := hs.summands
  have hassoc := Theory.associates_xor hx
  rw [← hes.flatForm_summands] at hs hms hlevels
  obtain ⟨ps, hps, hpieces⟩ :=
    covers_of_makes hassoc hT hes.reduced (List.ne_nil_of_mem hmem) hs hms
  obtain ⟨p, hp, hxp⟩ := List.mem_flatten.1 (hps.mem_iff.2 hmem)
  rcases (hpieces p hp).2 with hc | ⟨y, rfl, hy⟩
  swap
  · rwa [List.mem_singleton.1 hxp]
  -- The others in the piece of the summand make up the sum that releases it.
  have hpx := List.perm_cons_erase hxp
  have hpl : (p ++ (ps.erase p).flatten).Perm (ExclusiveOr.summands s) := by
    rw [← List.flatten_cons]
    exact (List.perm_cons_erase hp).symm.flatten.trans hps
  have hsplit : (p.erase x ++ x :: (ps.erase p).flatten).Perm (ExclusiveOr.summands s) :=
    List.perm_middle.trans ((hpx.symm.append_right _).trans hpl)
  have hpr := hes.reduced.subperm hpl
  have hr := hes.reduced.subperm hsplit
  refine makes_of_contains (contains_summand hx hK hpr hpx hc fun hne => ?_)
  have hsub := (Theory.perm_append_subset hsplit).1
  have hnot : x ∉ p.erase x := (List.nodup_cons.1 (hpx.nodup_iff.1 hpr.nodup)).1
  have hlength := hsplit.length_eq
  rw [List.length_append] at hlength
  have hmade : K.Makes T (flatForm .xor (.const .zero) (p.erase x)) := by
    refine makes_flatForm hassoc (makes_zero hx) hr (by omega) fun y hy => hothers y (hsub y hy) ?_
    rintro rfl
    exact hnot hy
  exact hmade.derivable hT (hassoc.message hr hne fun y hy => hmessages y (hsub y hy))
    ((Theory.levels_part_le hassoc.assoc hsplit hne).trans hlevels)

theorem makes_rest (hs : T.Message s) (hms : K.Makes T s)
    (hlevels : T.levels s ≤ maxConstructionDepth) (h : K.Keeps T s t) :
    K.Makes T (flatForm .xor (.const .zero) (ExclusiveOr.rest s t)) := by
  have hes := hs.normal.sum hx
  have hmessages := hs.summands
  have hp := ExclusiveOr.rest_append_common_perm s t
  obtain ⟨hrest, hcommon⟩ := Theory.perm_append_subset hp
  have hr := hes.reduced.subperm hp
  rcases h with hnil | hnil | ⟨hc, hone, hderives⟩ | ⟨hlen, a, hothers⟩
  · rw [hnil, List.append_nil] at hp
    rwa [flatForm_eq_of_perm hp, hes.flatForm_summands]
  · rw [hnil]
    exact makes_zero hx
  · obtain ⟨a, ha⟩ := List.length_eq_one_iff.1 hone
    rw [ha] at hp ⊢
    rw [← hes.flatForm_summands] at hc
    have hr' := hes.reduced.subperm (List.perm_append_comm.trans hp)
    rw [hr'.sum_eq] at hderives
    refine makes_of_contains (contains_summand hx hK hes.reduced hp.symm hc fun hne => ?_)
    exact derivable_of_derives ((Theory.associates_xor hx).message hr' hne fun x hx =>
      hmessages x (hcommon x hx)) hderives
  · have hall := makes_summands hx hK hT hs hms hlen hlevels fun x hmem hne =>
      makes_of_derives (hmessages x hmem) (hothers x hmem hne)
    have hlength := hp.length_eq
    rw [List.length_append] at hlength
    exact makes_flatForm (Theory.associates_xor hx) (makes_zero hx) hr (by omega) fun x hmem =>
      hall x (hrest x hmem)

/-- The sum of derivable messages, if each can do without what they have in common. -/
theorem makes_add (hs : T.Message s) (ht : T.Message t) (hms : K.Makes T s) (hmt : K.Makes T t)
    (hslevels : T.levels s ≤ maxConstructionDepth) (htlevels : T.levels t ≤ maxConstructionDepth)
    (hlen : (ExclusiveOr.summands (ExclusiveOr.add s t)).length ≤ maxBipartition)
    (hst : K.Keeps T s t) (hts : K.Keeps T t s) : K.Makes T (ExclusiveOr.add s t) := by
  have hr := ExclusiveOr.reduced_rests (hs.normal.sum hx) (ht.normal.sum hx)
  rw [ExclusiveOr.add_eq_flatForm (hs.normal.sum hx) (ht.normal.sum hx)] at hlen ⊢
  rw [(ExclusiveOr.summands_flatForm_perm hr.summand).length_eq] at hlen
  exact makes_append (Theory.associates_xor hx) hr hlen
    (makes_rest hx hK hT hs hms hslevels hst) (makes_rest hx hK hT ht hmt htlevels hts)

end Sums

theorem makes_union (hm : T.algebras.multisets = true) (hs : T.Message s) (ht : T.Message t)
    (hms : K.Makes T s) (hmt : K.Makes T t)
    (hlen : (Multiset.elements (Multiset.reduce .union [s, t])).length ≤ maxBipartition) :
    K.Makes T (Multiset.reduce .union [s, t]) := by
  have hes := hs.normal.union hm
  have het := ht.normal.union hm
  have hunion : Multiset.reduce .union [s, t] = flatForm .union (.app .union [])
      (Multiset.elements s ++ Multiset.elements t) := by
    rw [Multiset.reduce_union]
    simp
  have hr := List.forall_mem_append.2 ⟨hes.ne_union, het.ne_union⟩
  rw [hunion] at hlen ⊢
  rw [(Multiset.elements_flatForm_perm hr).length_eq] at hlen
  rw [← hes.flatForm_elements] at hms
  rw [← het.flatForm_elements] at hmt
  exact makes_append (Theory.associates_union hm) hr hlen hms hmt

/-! ## Derivable terms -/

/-- A ground term that is derivable and has no more levels than construction. -/
structure Obtains (K : Knowledge) (T : Theory) (t : Term) : Prop where
  flat : T.Flat t
  ground : t.isGround = true
  levels : T.levels (T.normalize t) ≤ maxConstructionDepth
  derives : K.derives T t = true

section Obtains

variable (hT : T.Standard)

include hT

theorem Obtains.message (h : K.Obtains T t) : T.Message (T.normalize t) :=
  hT.message_normalize h.flat h.ground

omit hT in
theorem Obtains.makes (h : K.Obtains T t) : K.Makes T (T.normalize t) := ⟨_, h.derives⟩

theorem message_operation {f : Symbol} {as : List Term} (hf : f.index < Signature.builtin.size)
    (hlen : as.length = Signature.builtin.arity f) (hne : as ≠ []) (has : ∀ a ∈ as, K.Obtains T a) :
    T.Message (T.normalize (.app f as)) := by
  refine hT.message_normalize (Term.has_app.2 ⟨?_, fun a ha => (has a ha).flat⟩)
    (Term.isGround_app.2 fun a ha => (has a ha).ground)
  change if T.isAssoc f then f = .union → 0 < as.length else as.length = T.signature.arity f
  split_ifs
  · exact fun _ => List.length_pos_iff.2 hne
  · rw [hlen, hT.arity_builtin hf]

theorem derives_of_makes {u : Term} (hu : T.Message (T.normalize u)) (h : K.Makes T (T.normalize u))
    (hlevels : T.levels (T.normalize u) ≤ maxConstructionDepth) : K.derives T u = true :=
  h.derivable hT hu hlevels

variable (hs : K.Obtains T s) (ht : K.Obtains T t)

include hs

theorem derives_inv (hK : K.Saturated T) (ha : T.algebras.exponents = true)
    (hwithin : T.Within Exponent.factors (.app .inv [s])) (h : K.Inverts T (T.normalize s)) :
    K.derives T (.app .inv [s]) = true := by
  have hms := hs.message hT
  have hmessage : T.Message (T.normalize (.app .inv [s])) :=
    message_operation hT (by decide) rfl (by simp) (List.forall_mem_singleton.2 hs)
  refine derives_of_makes hT hmessage ?_ hwithin.1
  have hlen := hwithin.2
  have helement := hms.normal.exponent ha
  rw [Theory.normalize_app, Theory.reduce_exponents (Algebras.owner?_exponents ha rfl)] at hlen ⊢
  change (Exponent.factors (Exponent.inverse (T.normalize s))).length ≤ maxBipartition at hlen
  rw [helement.inverse_eq, (Exponent.factors_product_perm helement.reduced.map_inverse).length_eq,
    List.length_map] at hlen
  refine makes_inverse ha hT hK hms hlen ?_
  rcases h with hhead | hall
  · rcases hms.normal.factor_or ha with hfactor | hone | ⟨as, hmult⟩
    · rw [hfactor.factors_eq, List.forall_mem_singleton]
      exact hs.makes
    · rw [hone]
      exact List.forall_mem_nil _
    · exact absurd (by rw [hmult]; rfl) hhead
  · exact fun x hx => makes_of_derives (hms.factors x hx) (hall x hx)

include ht

theorem message_binary {f : Symbol} (hf : f.index < Signature.builtin.size)
    (harity : 2 = Signature.builtin.arity f) : T.Message (T.normalize (.app f [s, t])) :=
  message_operation hT hf harity (List.cons_ne_nil _ _)
    (List.forall_mem_cons.2 ⟨hs, List.forall_mem_singleton.2 ht⟩)

theorem derives_xor (hK : K.Saturated T) (hx : T.algebras.xor = true)
    (hwithin : T.Within ExclusiveOr.summands (.app .xor [s, t]))
    (hst : K.Keeps T (T.normalize s) (T.normalize t))
    (hts : K.Keeps T (T.normalize t) (T.normalize s)) : K.derives T (.app .xor [s, t]) = true := by
  have hmessage : T.Message (T.normalize (.app .xor [s, t])) :=
    message_binary hT hs ht (by decide) rfl
  refine derives_of_makes hT hmessage ?_ hwithin.1
  have hlen := hwithin.2
  rw [Theory.normalize_app, Theory.reduce_xor (Algebras.owner?_xor hx rfl)] at hlen ⊢
  exact makes_add hx hK hT (hs.message hT) (ht.message hT) hs.makes ht.makes hs.levels ht.levels hlen
    hst hts

theorem derives_mult (ha : T.algebras.exponents = true)
    (hwithin : T.Within Exponent.factors (.app .mult [s, t]))
    (h : K.Multiplies T (T.normalize s) (T.normalize t)) :
    K.derives T (.app .mult [s, t]) = true := by
  have hmessage : T.Message (T.normalize (.app .mult [s, t])) :=
    message_binary hT hs ht (by decide) rfl
  refine derives_of_makes hT hmessage ?_ hwithin.1
  have hlen := hwithin.2
  rw [Theory.normalize_app, Theory.reduce_exponents (Algebras.owner?_exponents ha rfl)]
    at hlen hmessage ⊢
  rcases h with hapart | hall
  · exact makes_mul ha (hs.message hT) (ht.message hT) hs.makes ht.makes hlen hapart
  · exact makes_of_factors ha hmessage hlen fun x hx =>
      makes_of_derives (hmessage.factors x hx) (hall x hx)

theorem derives_exp (hK : K.Saturated T) (ha : T.algebras.exponents = true)
    (hlevels : T.levels (T.normalize (.app .exp [s, t])) ≤ maxConstructionDepth)
    (h : K.Raises T (T.normalize s) (T.normalize t)) : K.derives T (.app .exp [s, t]) = true := by
  have hms := hs.message hT
  have hmt := ht.message hT
  have hmessage : T.Message (T.normalize (.app .exp [s, t])) :=
    message_binary hT hs ht (by decide) rfl
  refine derives_of_makes hT hmessage ?_ hlevels
  rw [Theory.normalize_app, Theory.reduce_exponents (Algebras.owner?_exponents ha rfl)] at hmessage ⊢
  change K.Makes T (Exponent.power (T.normalize s) (T.normalize t))
  rcases h with hnil | ⟨hapart, hlen | ⟨hlen, b, e, hbe, hb, he⟩⟩ | ⟨hc, hlen, hfactors⟩ |
    ⟨hlen, hold, hnew⟩
  · refine makes_power_apart ha hms hmt hs.makes ht.makes (.inl hnil) fun x hx => ?_
    rw [hnil]
    exact List.not_mem_nil
  · exact makes_power_apart ha hms hmt hs.makes ht.makes (.inr hlen) hapart
  · rw [hbe] at hms hlen hapart ⊢
    exact makes_power_split ha hms hmt (makes_of_derives (hms.args b (by simp)) hb)
      (makes_of_derives (hms.args e (by simp)) he) ht.makes hlen hapart
  · exact makes_power_known ha hT hK hms hmt hs.levels hc hlen fun x hx =>
      makes_of_derives (hmt.factors x hx) (hfactors x hx)
  · exact makes_power_factors ha hT hK hms hmt hs.makes hs.levels hlen
      (fun x hx => makes_of_derives (hms.exponents ha x hx) (hold x hx))
      fun x hx => makes_of_derives (hmessage.exponents ha x hx) (hnew x hx)

theorem derives_union (hm : T.algebras.multisets = true)
    (hwithin : T.Within Multiset.elements (.app .union [s, t])) :
    K.derives T (.app .union [s, t]) = true := by
  have hmessage : T.Message (T.normalize (.app .union [s, t])) :=
    message_binary hT hs ht (by decide) rfl
  refine derives_of_makes hT hmessage ?_ hwithin.1
  have hlen := hwithin.2
  rw [Theory.normalize_app, Theory.reduce_multisets (Algebras.owner?_multisets hm)] at hlen ⊢
  exact makes_union hm (hs.message hT) (ht.message hT) hs.makes ht.makes hlen

end Obtains

end Knowledge

/-- The adversary can add, multiply, invert, raise and join what it derives, within the bounds of
construction and where nothing cancels that it does not get. -/
theorem derives_operations {pack : Pack} {sig : Signature} {T : Theory} (hp : Assembled pack sig)
    (hT : Theory.ofRules sig pack.equations pack.algebras = .ok T) {ts : List Term}
    (hts : ∀ t ∈ ts, T.Flat t ∧ t.isGround = true) {K : Knowledge}
    (hK : K = ts.foldl (fun K t => K.learn T t) {}) {s t : Term} (hs : K.Obtains T s)
    (ht : K.Obtains T t) :
    (T.algebras.xor = true → T.Within ExclusiveOr.summands (.app .xor [s, t]) →
      K.Keeps T (T.normalize s) (T.normalize t) → K.Keeps T (T.normalize t) (T.normalize s) →
        K.derives T (.app .xor [s, t]) = true) ∧
    (T.algebras.exponents = true → T.Within Exponent.factors (.app .mult [s, t]) →
      K.Multiplies T (T.normalize s) (T.normalize t) → K.derives T (.app .mult [s, t]) = true) ∧
    (T.algebras.exponents = true → T.Within Exponent.factors (.app .inv [s]) →
      K.Inverts T (T.normalize s) → K.derives T (.app .inv [s]) = true) ∧
    (T.algebras.exponents = true →
      T.levels (T.normalize (.app .exp [s, t])) ≤ Knowledge.maxConstructionDepth →
        K.Raises T (T.normalize s) (T.normalize t) → K.derives T (.app .exp [s, t]) = true) ∧
    (T.algebras.multisets = true → T.Within Multiset.elements (.app .union [s, t]) →
      K.derives T (.app .union [s, t]) = true) := by
  have hpacks := hp.ofPacks hT
  have hstandard := hpacks.standard
  have hsaturated : K.Saturated T := by
    rw [hK]
    exact Knowledge.saturated_learnAll hpacks fun t ht =>
      hstandard.message_normalize (hts t ht).1 (hts t ht).2
  exact ⟨fun hx => Knowledge.derives_xor hstandard hs ht hsaturated hx,
    fun ha => Knowledge.derives_mult hstandard hs ht ha,
    fun ha => Knowledge.derives_inv hstandard hs hsaturated ha,
    fun ha => Knowledge.derives_exp hstandard hs ht hsaturated ha,
    fun hm => Knowledge.derives_union hstandard hs ht hm⟩

/-- The built-in symbols and a hash function. -/
def operationSignature : Signature := ⟨Signature.builtin.symbols ++ [⟨"h", 1, .pub⟩]⟩

def operationPack : Pack where
  algebras := { exponents := true, xor := true, multisets := true }

theorem assembled_operations : Assembled operationPack operationSignature :=
  @Assembled.load _ _ _ _ "multiset" (@Assembled.load _ _ _ _ "xor"
    (@Assembled.load _ _ _ _ "diffie-hellman" (@Assembled.load _ _ _ _ "hashing" .builtin rfl) rfl)
    rfl) rfl

def operationTheory : Theory :=
  ⟨operationSignature, operationPack.algebras, Reduction.projections ++ operationPack.equations⟩

/-- A one-time pad with its key, and a power with one of its factors. -/
def padObservations : List Term :=
  let x : Term := .name (.fresh "x" 2)
  [.app .xor [.name (.fresh "a" 0), .name (.fresh "b" 1)], .name (.fresh "b" 1),
    .app .exp [.pubName "g", .app .mult [x, .name (.fresh "y" 3)]], x]

/-- The key is taken off the pad, and the factor out of the power. -/
theorem derives_operations_pad :
    let K := padObservations.foldl (fun K t => K.learn operationTheory t) ({} : Knowledge)
    let key : Term := .name (.fresh "b" 1)
    let pad : Term := .app .xor [.name (.fresh "a" 0), key]
    let x : Term := .name (.fresh "x" 2)
    let power : Term := .app .exp [.pubName "g", .app .mult [x, .name (.fresh "y" 3)]]
    (K.Obtains operationTheory pad ∧ K.Obtains operationTheory key ∧
      ∀ u ∈ [.app .xor [pad, key], .app .mult [pad, key], .app .inv [pad], .app .exp [pad, key],
        .app .union [pad, key]], K.derives operationTheory u = true) ∧
    K.Obtains operationTheory power ∧ K.Obtains operationTheory (.app .inv [x]) ∧
      K.derives operationTheory (.app .exp [power, .app .inv [x]]) = true := by
  intro K key pad x power
  have hobserved : ∀ t ∈ padObservations, operationTheory.Flat t ∧ t.isGround = true := by decide
  have hpad : K.Obtains operationTheory pad :=
    ⟨by decide, by decide, by decide +kernel, by decide +kernel⟩
  have hkey : K.Obtains operationTheory key :=
    ⟨by decide, by decide, by decide +kernel, by decide +kernel⟩
  have hpower : K.Obtains operationTheory power :=
    ⟨by decide, by decide, by decide +kernel, by decide +kernel⟩
  have hinverse : K.Obtains operationTheory (.app .inv [x]) :=
    ⟨by decide, by decide, by decide +kernel, by decide +kernel⟩
  obtain ⟨hxor, hmult, hinv, hexp, hunion⟩ :=
    derives_operations assembled_operations rfl hobserved rfl hpad hkey
  obtain ⟨-, -, -, hraised, -⟩ :=
    derives_operations assembled_operations rfl hobserved rfl hpower hinverse
  refine ⟨⟨hpad, hkey, ?_⟩, hpower, hinverse, ?_⟩
  · rw [List.forall_mem_cons, List.forall_mem_cons, List.forall_mem_cons, List.forall_mem_cons,
      List.forall_mem_singleton]
    refine ⟨hxor rfl ?_ (.inr (.inr (.inl ?_))) (.inr (.inl ?_)), hmult rfl ?_ (.inl ?_),
      hinv rfl ?_ (.inl ?_), hexp rfl ?_ (.inl ?_), hunion rfl ?_⟩
    · exact ⟨by decide +kernel, by decide +kernel⟩
    · exact ⟨by decide +kernel, by decide +kernel, by decide +kernel⟩
    · decide +kernel
    · exact ⟨by decide +kernel, by decide +kernel⟩
    · decide +kernel
    · exact ⟨by decide +kernel, by decide +kernel⟩
    · decide +kernel
    · decide +kernel
    · decide +kernel
    · exact ⟨by decide +kernel, by decide +kernel⟩
  · refine hraised rfl (by decide +kernel) (.inr (.inr (.inl ?_)))
    exact ⟨by decide +kernel, by decide +kernel, by decide +kernel⟩

/-- The symbol applied to derivable terms gives a term that is not derivable, though none of them nests
too many applications. -/
def Theory.Loses (T : Theory) (ts : List Term) (f : Symbol) (as : List Term) : Prop :=
  (∀ t ∈ ts ++ .app f as :: as, T.Flat t ∧ t.isGround = true ∧ t.nesting ≤ 16 ∧
    (T.normalize t).nesting ≤ 16) ∧
  (∀ a ∈ as, (ts.foldl (fun K t => K.learn T t) ({} : Knowledge)).derives T a = true) ∧
    (ts.foldl (fun K t => K.learn T t) ({} : Knowledge)).derives T (.app f as) = false

instance (T : Theory) (ts : List Term) (f : Symbol) (as : List Term) : Decidable (T.Loses ts f as) :=
  inferInstanceAs (Decidable (_ ∧ _ ∧ _))

/-- Observations, and an operation on derivable terms. -/
def losses : List (List Term × Symbol × List Term) :=
  let fresh (i : Nat) : Term := .name (.fresh "n" i)
  let hash (s : String) : Term := (fun t => .app ⟨10⟩ [t])^[14] (.pubName s)
  let six : List Term := ["a", "b", "c", "d", "e", "f"].map .pubName
  let sum : Term := .app .xor [fresh 0, fresh 1]
  let product : Term := .app .mult [fresh 0, fresh 1]
  let power : Term := .app .exp [.pubName "g", product]
  let long : Term := .app .exp [.pubName "g", .app .mult ((List.range 5).map fresh)]
  -- What cancels is a summand that cannot be had, or leaves two summands of a known sum.
  [([sum, .app .xor [fresh 1, fresh 2]], .xor, [sum, .app .xor [fresh 1, fresh 2]]),
    ([.app .xor [fresh 0, fresh 1, fresh 2], fresh 2], .xor,
      [.app .xor [fresh 0, fresh 1, fresh 2], fresh 2]),
    -- No factor is taken out of a product, nor out of the exponent of a power that is not known.
    ([product, .app .inv [fresh 0]], .mult, [product, .app .inv [fresh 0]]),
    ([product], .inv, [product]),
    ([product, fresh 0], .exp, [power, .app .inv [fresh 0]]),
    ([.app .exp [.pubName "g", fresh 0], .app .mult [.app .inv [fresh 0], fresh 1]], .exp,
      [.app .exp [.pubName "g", fresh 0], .app .mult [.app .inv [fresh 0], fresh 1]]),
    -- Seven parts are not split, nor six factors of an exponent.
    ([], .xor, [.app .xor six, .pubName "g"]), ([], .mult, [.app .mult six, .pubName "g"]),
    ([], .union, [.app .union six, .pubName "g"]), ([long, fresh 5], .exp, [long, fresh 5]),
    -- Five parts take three levels.
    ([], .xor, [.app .xor (["a", "b", "c", "d"].map hash), hash "e"])]

/-- The adversary is not closed under the operations. -/
theorem derives_loses_operations :
    Assembled operationPack operationSignature ∧
      Theory.ofRules operationSignature operationPack.equations operationPack.algebras =
        .ok operationTheory ∧
      ∀ l ∈ losses, operationTheory.Loses l.1 l.2.1 l.2.2 :=
  ⟨assembled_operations, rfl, by decide +kernel⟩

end ProtocolProver
