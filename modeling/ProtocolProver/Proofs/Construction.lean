import ProtocolProver.Proofs.Messages

/-!
# Construction from parts

`Theory.Splits` says what parts a message is decomposed in. The symbol at its root puts them together
again (`Splits.reduce`). Products, sums and unions are split in two in all ways that there are, up to
order and up to a number of arguments (`exists_mem_bipartitions`), and so are the factors of an
exponent.
-/

namespace ProtocolProver

/-! ## Splitting a list in two -/

section Splits

variable {α : Type}

theorem splitByMask_cons (mask : Nat) (a : α) (as : List α) :
    splitByMask mask (a :: as) = if mask % 2 = 1 then
      (a :: (splitByMask (mask / 2) as).1, (splitByMask (mask / 2) as).2) else
      ((splitByMask (mask / 2) as).1, a :: (splitByMask (mask / 2) as).2) := rfl

theorem perm_splitByMask : ∀ (mask : Nat) (l : List α),
    ((splitByMask mask l).1 ++ (splitByMask mask l).2).Perm l
  | _, [] => .refl _
  | mask, a :: as => by
    have ih := perm_splitByMask (mask / 2) as
    rw [splitByMask_cons]
    split
    · exact ih.cons a
    · exact List.perm_middle.trans (ih.cons a)

theorem splitByMask_fst_ne_nil : ∀ {mask : Nat} {l : List α}, 0 < mask → mask < 2 ^ l.length →
    (splitByMask mask l).1 ≠ []
  | mask, [], h, h' => by
    rw [List.length_nil, Nat.pow_zero] at h'
    omega
  | mask, a :: as, h, h' => by
    rw [splitByMask_cons]
    split
    · exact List.cons_ne_nil _ _
    · rw [List.length_cons, Nat.pow_succ] at h'
      exact splitByMask_fst_ne_nil (by omega) (by omega)

theorem splitByMask_snd_ne_nil : ∀ {mask : Nat} {l : List α}, mask + 1 < 2 ^ l.length →
    (splitByMask mask l).2 ≠ []
  | mask, [], h => by
    rw [List.length_nil, Nat.pow_zero] at h
    omega
  | mask, a :: as, h => by
    rw [splitByMask_cons]
    split
    · rw [List.length_cons, Nat.pow_succ] at h
      exact splitByMask_snd_ne_nil (by omega)
    · exact List.cons_ne_nil _ _

theorem splitByMask_zero : ∀ l : List α, splitByMask 0 l = ([], l)
  | [] => rfl
  | a :: as => by rw [splitByMask_cons, if_neg (by omega), Nat.zero_div, splitByMask_zero as]

theorem splitByMask_ones : ∀ l : List α, (splitByMask (2 ^ l.length - 1) l).2 = []
  | [] => rfl
  | a :: as => by
    have hpos := Nat.two_pow_pos as.length
    rw [splitByMask_cons, List.length_cons, Nat.pow_succ, if_pos (by omega),
      show (2 ^ as.length * 2 - 1) / 2 = 2 ^ as.length - 1 by omega]
    exact splitByMask_ones as

theorem exists_perm_cons {a : α} {as ts us : List α} (h : (a :: as).Perm (ts ++ us)) (ha : a ∈ ts) :
    ∃ ts', ts.Perm (a :: ts') ∧ as.Perm (ts' ++ us) := by
  obtain ⟨ts₁, ts₂, rfl⟩ := List.append_of_mem ha
  refine ⟨ts₁ ++ ts₂, List.perm_middle, ?_⟩
  rw [List.append_assoc, List.cons_append] at h
  rw [List.append_assoc]
  exact (h.trans List.perm_middle).cons_inv

theorem exists_splitByMask : ∀ {l ts us : List α}, l.Perm (ts ++ us) →
    ∃ mask < 2 ^ l.length, (splitByMask mask l).1.Perm ts ∧ (splitByMask mask l).2.Perm us
  | [], ts, us, h => by
    obtain ⟨rfl, rfl⟩ := List.append_eq_nil_iff.1 h.nil_eq.symm
    exact ⟨0, by simp, .refl _, .refl _⟩
  | a :: as, ts, us, h => by
    rw [List.length_cons, Nat.pow_succ]
    rcases List.mem_append.1 (h.mem_iff.1 (List.mem_cons_self ..)) with ha | ha
    · obtain ⟨ts', hts, hrest⟩ := exists_perm_cons h ha
      obtain ⟨mask, hmask, hones, hzeros⟩ := exists_splitByMask hrest
      refine ⟨2 * mask + 1, by omega, ?_⟩
      rw [splitByMask_cons, if_pos (by omega), show (2 * mask + 1) / 2 = mask by omega]
      exact ⟨(hones.cons a).trans hts.symm, hzeros⟩
    · obtain ⟨us', hus, hrest⟩ := exists_perm_cons (h.trans List.perm_append_comm) ha
      obtain ⟨mask, hmask, hones, hzeros⟩ := exists_splitByMask (hrest.trans List.perm_append_comm)
      refine ⟨2 * mask, by omega, ?_⟩
      rw [splitByMask_cons, if_neg (by omega), show 2 * mask / 2 = mask by omega]
      exact ⟨hones, (hzeros.cons a).trans hus.symm⟩

variable {l ts us : List α}

theorem perm_of_mem_bipartitions (h : (ts, us) ∈ bipartitions l) : (ts ++ us).Perm l := by
  cases l with
  | nil => simp [bipartitions] at h
  | cons a as =>
    unfold bipartitions at h
    simp only at h
    split at h
    · obtain ⟨mask, -, h⟩ := List.mem_filterMap.1 h
      split at h <;> cases h
      exact (perm_splitByMask mask as).cons a
    · cases h

theorem length_le_of_mem_bipartitions {p : List α × List α} (h : p ∈ bipartitions l) :
    l.length ≤ maxBipartition := by
  cases l with
  | nil => exact Nat.zero_le _
  | cons a as =>
    unfold bipartitions at h
    simp only at h
    split at h
    · assumption
    · cases h

/-- Every way to split a list in two parts that are not empty is listed, up to order. -/
theorem exists_mem_bipartitions (h : l.Perm (ts ++ us)) (hts : ts ≠ []) (hus : us ≠ [])
    (hl : l.length ≤ maxBipartition) : ∃ p ∈ bipartitions l,
      p.1.Perm ts ∧ p.2.Perm us ∨ p.1.Perm us ∧ p.2.Perm ts := by
  cases l with
  | nil => exact absurd (List.append_eq_nil_iff.1 h.nil_eq.symm).1 hts
  | cons a as =>
    have key : ∀ {ts us : List α}, (a :: as).Perm (ts ++ us) → us ≠ [] → a ∈ ts →
        ∃ p ∈ bipartitions (a :: as), p.1.Perm ts ∧ p.2.Perm us := by
      intro ts us h hus ha
      obtain ⟨ts', hts, hrest⟩ := exists_perm_cons h ha
      obtain ⟨mask, hmask, hones, hzeros⟩ := exists_splitByMask hrest
      have hne : (splitByMask mask as).2.isEmpty = false := by
        rw [Bool.eq_false_iff]
        intro he
        rw [List.isEmpty_iff.1 he] at hzeros
        exact hus hzeros.nil_eq.symm
      rw [bipartitions, if_pos (by simpa using hl)]
      refine ⟨(a :: (splitByMask mask as).1, (splitByMask mask as).2), List.mem_filterMap.2
        ⟨mask, List.mem_range.2 hmask, ?_⟩, (hones.cons a).trans hts.symm, hzeros⟩
      simp [hne]
    rcases List.mem_append.1 (h.mem_iff.1 (List.mem_cons_self ..)) with ha | ha
    · obtain ⟨p, hp, hperm⟩ := key h hus ha
      exact ⟨p, hp, .inl hperm⟩
    · obtain ⟨p, hp, hperm⟩ := key (h.trans List.perm_append_comm) hts ha
      exact ⟨p, hp, .inr hperm⟩

end Splits

/-! ## Putting parts together -/

theorem Exponent.Reduced.subset {ts us : List Term} (h : Exponent.Reduced ts)
    (hsub : ∀ u ∈ us, u ∈ ts) : Exponent.Reduced us :=
  ⟨fun u hu => h.factor u (hsub u hu), fun u hu hi => h.apart u (hsub u hu) (hsub _ hi)⟩

theorem Exponent.mul_product {ts us l : List Term} (h : Exponent.Reduced l)
    (hp : (ts ++ us).Perm l) : mul (product ts) (product us) = product l := by
  have hts : Exponent.Reduced ts := h.subset fun t ht => hp.mem_iff.1 (List.mem_append_left _ ht)
  have hus : Exponent.Reduced us := h.subset fun t ht => hp.mem_iff.1 (List.mem_append_right _ ht)
  refine (element_mul (.of_reduced hts) (.of_reduced hus)).eq_of_net_eq (.of_reduced h) ?_
  rw [net_mul (.of_reduced hts) (.of_reduced hus), net_perm (factors_product_perm hts),
    net_perm (factors_product_perm hus), net_perm (factors_product_perm h), ← net_append,
    net_perm hp]

theorem Exponent.raise_product {b : Term} {l : List Term} (h : Exponent.Reduced l) (hne : l ≠ []) :
    raise b (product l) = .app .exp [b, product l] := by
  refine if_neg fun hone => hne ?_
  have hfactors := factors_product_perm h
  rw [hone] at hfactors
  exact hfactors.nil_eq.symm

theorem ExclusiveOr.Reduced.sum_eq {ts : List Term} (h : Reduced ts) :
    sum ts = flatForm .xor (.const .zero) ts := by
  refine (element_sum h.summand).eq_of_parity_eq ⟨ts, h, rfl⟩ ?_
  rw [parity_sum h.summand, parity_perm (summands_flatForm_perm h.summand)]

theorem ExclusiveOr.Reduced.subperm {ts us l : List Term} (h : Reduced l)
    (hp : (ts ++ us).Perm l) : Reduced ts :=
  ⟨fun t ht => h.summand t (hp.mem_iff.1 (List.mem_append_left _ ht)),
    (List.nodup_append.1 (hp.nodup_iff.2 h.nodup)).1⟩

theorem ExclusiveOr.add_sum {ts us l : List Term} (h : ∀ t ∈ l, ExclusiveOr.Summand t)
    (hp : (ts ++ us).Perm l) : add (sum ts) (sum us) = sum l := by
  have hts : ∀ t ∈ ts, Summand t := fun t ht => h t (hp.mem_iff.1 (List.mem_append_left _ ht))
  have hus : ∀ t ∈ us, Summand t := fun t ht => h t (hp.mem_iff.1 (List.mem_append_right _ ht))
  refine (element_add (element_sum hts) (element_sum hus)).eq_of_parity_eq (element_sum h) ?_
  rw [parity_add (element_sum hts) (element_sum hus), parity_sum hts, parity_sum hus, parity_sum h,
    ← parity_append, parity_perm hp]

theorem ExclusiveOr.add_others {a : Term} {as rest : List Term} (h : Element (.app .xor as))
    (hp : as.Perm (a :: rest)) : add (.app .xor as) (sum rest) = a := by
  have hsummands : summands (.app .xor as) = as := by rw [summands, if_pos rfl]
  have hreduced := h.reduced
  rw [hsummands] at hreduced
  have ha : Summand a := hreduced.summand a (hp.mem_iff.2 (List.mem_cons_self ..))
  have hrest : ∀ t ∈ rest, Summand t := fun t ht =>
    hreduced.summand t (hp.mem_iff.2 (List.mem_cons_of_mem a ht))
  refine (element_add h (element_sum hrest)).eq_of_parity_eq (.of_summand ha) ?_
  rw [parity_add h (element_sum hrest), parity_sum hrest, hsummands, ha.summands_eq, parity_perm hp,
    ← List.singleton_append, parity_append, add_assoc, add_self_parity, add_zero]

theorem Multiset.reduce_unions {ts us l : List Term} (h : ∀ t ∈ l, t.head? ≠ some .union)
    (hp : (ts ++ us).Perm l) : reduce .union [union ts, union us] = union l := by
  have hts : ∀ t ∈ ts, t.head? ≠ some .union := fun t ht =>
    h t (hp.mem_iff.1 (List.mem_append_left _ ht))
  have hus : ∀ t ∈ us, t.head? ≠ some .union := fun t ht =>
    h t (hp.mem_iff.1 (List.mem_append_right _ ht))
  rw [reduce_union, union_eq, union_eq, union_eq]
  refine flatForm_eq_of_perm ?_
  simp only [List.flatMap_cons, List.flatMap_nil, List.append_nil]
  exact ((elements_flatForm_perm hts).append (elements_flatForm_perm hus)).trans hp

namespace Theory

variable {T : Theory} {f : Symbol} {as parts : List Term}

theorem Message.union {ts : List Term} (hT : T.algebras.multisets = true) (hne : ts ≠ [])
    (hu : ∀ t ∈ ts, t.head? ≠ some .union) (h : ∀ t ∈ ts, T.Message t) :
    T.Message (Multiset.union ts) := by
  refine ⟨?_, Term.isGround_iff.2 (Closes.has_union (by simp) hne fun t ht =>
    Term.isGround_iff.1 (h t ht).ground)⟩
  rw [Multiset.union_eq]
  exact .flatForm_union hT hne hu fun t ht => (h t ht).normal

theorem Standard.isPublic_builtin (hT : T.Standard) (hf : f.index < Signature.builtin.size) :
    T.signature.isPublic f = true := by
  rw [Signature.isPublic, hT.builtin f hf]
  have hall : ∀ i < Signature.builtin.size, Signature.builtin.isPublic ⟨i⟩ = true := by decide
  exact hall f.index hf

section Parts

variable {ts us : List Term}

theorem perm_append_subset {l : List Term} (hp : (ts ++ us).Perm l) :
    (∀ t ∈ ts, t ∈ l) ∧ ∀ u ∈ us, u ∈ l :=
  List.forall_mem_append.1 fun _ => hp.mem_iff.1

theorem Message.reduce_mult (ha : T.algebras.exponents = true) (ht : T.Message (.app .mult as))
    (hp : (ts ++ us).Perm as) : T.Message (Exponent.product ts) ∧ T.Message (Exponent.product us) ∧
      Exponent.reduce .mult [Exponent.product ts, Exponent.product us] = .app .mult as := by
  obtain ⟨-, -, hreduced⟩ := (ht.normal.exponent_root ha rfl).mult rfl
  have hfactors : Exponent.factors (.app .mult as) = as := by rw [Exponent.factors, if_pos rfl]
  obtain ⟨hts, hus⟩ := perm_append_subset hp
  refine ⟨.product ha (hreduced.subset hts) fun x hx => ht.args x (hts x hx),
    .product ha (hreduced.subset hus) fun x hx => ht.args x (hus x hx), ?_⟩
  refine (Exponent.mul_product hreduced hp).trans ?_
  nth_rewrite 1 [← hfactors]
  exact (ht.normal.exponent ha).product_factors

theorem Message.reduce_exp (ha : T.algebras.exponents = true) {b e : Term}
    (ht : T.Message (.app .exp [b, e])) (hp : (ts ++ us).Perm (Exponent.factors e)) (hne : ts ≠ []) :
    T.Message (.app .exp [b, Exponent.product ts]) ∧ T.Message (Exponent.product us) ∧
      Exponent.reduce .exp [.app .exp [b, Exponent.product ts], Exponent.product us] =
        .app .exp [b, e] := by
  obtain ⟨b', e', hbe, hb, he⟩ := (ht.normal.exponent_root ha rfl).exp rfl
  cases hbe
  have hexponent := ht.args e (by simp)
  have helement := hexponent.normal.exponent ha
  obtain ⟨hts, hus⟩ := perm_append_subset hp
  have hproduct : ∀ {l : List Term}, (∀ x ∈ l, x ∈ Exponent.factors e) →
      T.Message (Exponent.product l) := fun hl =>
    .product ha (helement.reduced.subset hl) fun x hx => hexponent.factors x (hl x hx)
  have hraise : Term.app .exp [b, Exponent.product ts] =
      Exponent.raise b (Exponent.product ts) :=
    (Exponent.raise_product (helement.reduced.subset hts) hne).symm
  refine ⟨hraise ▸ .raise ha hb (ht.args b (by simp)) (hproduct hts), hproduct hus, ?_⟩
  rw [hraise]
  refine (Exponent.power_raise hb (.of_reduced (helement.reduced.subset hts))
    (.of_reduced (helement.reduced.subset hus))).trans ?_
  rw [Exponent.mul_product helement.reduced hp, helement.product_factors]
  exact if_neg he

theorem Message.reduce_xor (hx : T.algebras.xor = true) (ht : T.Message (.app .xor as))
    (hp : (ts ++ us).Perm as) : T.Message (ExclusiveOr.sum ts) ∧ T.Message (ExclusiveOr.sum us) ∧
      ExclusiveOr.reduce .xor [ExclusiveOr.sum ts, ExclusiveOr.sum us] = .app .xor as := by
  obtain ⟨-, -, hreduced⟩ := (ht.normal.xor_root hx rfl).xor rfl
  have hsummands : ExclusiveOr.summands (.app .xor as) = as := by
    rw [ExclusiveOr.summands, if_pos rfl]
  obtain ⟨hts, hus⟩ := perm_append_subset hp
  refine ⟨.sum hx (fun x hx => hreduced.summand x (hts x hx)) fun x hx => ht.args x (hts x hx),
    .sum hx (fun x hx => hreduced.summand x (hus x hx)) fun x hx => ht.args x (hus x hx), ?_⟩
  refine (ExclusiveOr.add_sum hreduced.summand hp).trans ?_
  refine (ExclusiveOr.element_sum hreduced.summand).eq_of_parity_eq (ht.normal.sum hx) ?_
  rw [ExclusiveOr.parity_sum hreduced.summand, hsummands]

theorem Message.reduce_union (hm : T.algebras.multisets = true) (ht : T.Message (.app .union as))
    (hp : (ts ++ us).Perm as) (hts : ts ≠ []) (hus : us ≠ []) :
    T.Message (Multiset.union ts) ∧ T.Message (Multiset.union us) ∧
      Multiset.reduce .union [Multiset.union ts, Multiset.union us] = .app .union as := by
  have hflat := (ht.normal.union_root hm).flat
  obtain ⟨htsub, husub⟩ := perm_append_subset hp
  refine ⟨.union hm hts (fun x hx => hflat x (htsub x hx)) fun x hx => ht.args x (htsub x hx),
    .union hm hus (fun x hx => hflat x (husub x hx)) fun x hx => ht.args x (husub x hx), ?_⟩
  refine (Multiset.reduce_unions hflat hp).trans ?_
  rw [Multiset.union_eq]
  exact (ht.normal.union hm).flatForm_elements

end Parts

/-- The ways to split a message in parts: its arguments, or two parts of a power, a product, a sum or
a union. -/
inductive Splits (T : Theory) : Term → List Term → Prop
  | args {f : Symbol} {as : List Term} : T.signature.isPublic f = true →
      as.length = T.signature.arity f → T.Splits (.app f as) as
  | power {b e : Term} {ts us : List Term} : T.algebras.exponents = true →
      (ts ++ us).Perm (Exponent.factors e) → ts ≠ [] → us ≠ [] →
        T.Splits (.app .exp [b, e]) [.app .exp [b, Exponent.product ts], Exponent.product us]
  | product {as ts us : List Term} : T.algebras.exponents = true → (ts ++ us).Perm as → ts ≠ [] →
      us ≠ [] → T.Splits (.app .mult as) [Exponent.product ts, Exponent.product us]
  | sum {as ts us : List Term} : T.algebras.xor = true → (ts ++ us).Perm as → ts ≠ [] → us ≠ [] →
      T.Splits (.app .xor as) [ExclusiveOr.sum ts, ExclusiveOr.sum us]
  | union {as ts us : List Term} : T.algebras.multisets = true → (ts ++ us).Perm as → ts ≠ [] →
      us ≠ [] → T.Splits (.app .union as) [Multiset.union ts, Multiset.union us]

section Splits

variable (hT : T.Standard)

include hT

theorem Standard.splits_args (hf : f.index < Signature.builtin.size)
    (hlen : as.length = Signature.builtin.arity f) : T.Splits (.app f as) as :=
  .args (hT.isPublic_builtin hf) (hlen.trans (hT.arity_builtin hf).symm)

theorem splits_of_mem_exponent_decompose (ha : T.algebras.exponents = true)
    (hf : Exponent.owns f = true) (ht : T.Message (.app f as))
    (h : parts ∈ Exponent.decompose f as) : T.Splits (.app f as) parts := by
  have hroot := ht.normal.exponent_root ha hf
  simp only [Exponent.owns, Bool.or_eq_true, beq_iff_eq] at hf
  rcases hf with ((rfl | rfl) | rfl) | rfl
  · obtain ⟨b, e, rfl, -⟩ := hroot.exp rfl
    rcases List.mem_cons.1 h with rfl | h
    · exact hT.splits_args (by decide) rfl
    · split_ifs at h
      · obtain ⟨i, hi, rfl⟩ := List.mem_map.1 h
        have hlt : i < 2 ^ (Exponent.factors e).length - 2 := List.mem_range.1 hi
        exact .power ha (perm_splitByMask (i + 1) _)
          (splitByMask_fst_ne_nil (Nat.succ_pos i) (by omega)) (splitByMask_snd_ne_nil (by omega))
      · cases h
  · obtain ⟨⟨ts, us⟩, hp, rfl⟩ := List.mem_map.1 h
    obtain ⟨-, -, hts, hus⟩ := mem_bipartitions hp
    exact .product ha (perm_of_mem_bipartitions hp) hts hus
  · obtain ⟨a, rfl, -⟩ := hroot.inv rfl
    cases List.mem_singleton.1 h
    exact hT.splits_args (by decide) rfl
  · cases hroot.one rfl
    cases List.mem_singleton.1 h
    exact hT.splits_args (by decide) rfl

theorem splits_of_mem_decompose (ht : T.Message (.app f as)) (h : parts ∈ T.decompose (.app f as)) :
    T.Splits (.app f as) parts := by
  rw [decompose] at h
  rcases T.algebras.owner?_cases f with ⟨ho, ha, hf⟩ | ⟨ho, hx, hf⟩ | ⟨ho, hm, rfl⟩ | ho
  · simp only [ho] at h
    exact splits_of_mem_exponent_decompose hT ha hf ht h
  · simp only [ho] at h
    have hroot := ht.normal.xor_root hx hf
    simp only [ExclusiveOr.owns, Bool.or_eq_true, beq_iff_eq] at hf
    rcases hf with rfl | rfl
    · obtain ⟨⟨ts, us⟩, hp, rfl⟩ := List.mem_map.1 h
      obtain ⟨-, -, hts, hus⟩ := mem_bipartitions hp
      exact .sum hx (perm_of_mem_bipartitions hp) hts hus
    · cases hroot.zero rfl
      cases List.mem_singleton.1 h
      exact hT.splits_args (by decide) rfl
  · simp only [ho] at h
    obtain ⟨⟨ts, us⟩, hp, rfl⟩ := List.mem_map.1 h
    obtain ⟨-, -, hts, hus⟩ := mem_bipartitions hp
    exact .union hm (perm_of_mem_bipartitions hp) hts hus
  · simp only [ho] at h
    split_ifs at h with hpublic
    · cases List.mem_singleton.1 h
      have hroot := ht.normal.root
      rw [RootNormal, ho] at hroot
      exact .args hpublic hroot.1
    · cases h

/-- The parts of a message are messages, and the symbol at its root puts them together. -/
theorem Splits.reduce (ht : T.Message (.app f as)) (h : T.Splits (.app f as) parts) :
    T.signature.isPublic f = true ∧ parts.length = T.signature.arity f ∧
      (∀ p ∈ parts, T.Message p) ∧ T.reduce reductionLimit f parts = .app f as := by
  have hbuiltin : ∀ {g : Symbol}, g.index < Signature.builtin.size →
      Signature.builtin.arity g = 2 → T.signature.isPublic g = true ∧ 2 = T.signature.arity g :=
    fun hg hn => ⟨hT.isPublic_builtin hg, by rw [hT.arity_builtin hg, hn]⟩
  cases h with
  | args hf hlen => exact ⟨hf, hlen, ht.args, ht.normal.reduce_eq _⟩
  | power ha hp hts _ =>
    obtain ⟨h₁, h₂, hsplit⟩ := ht.reduce_exp ha hp hts
    obtain ⟨hf, hlen⟩ := hbuiltin (g := .exp) (by decide) (by decide)
    rw [reduce_exponents (Algebras.owner?_exponents ha rfl)]
    exact ⟨hf, hlen, by simp [h₁, h₂], hsplit⟩
  | product ha hp _ _ =>
    obtain ⟨h₁, h₂, hsplit⟩ := ht.reduce_mult ha hp
    obtain ⟨hf, hlen⟩ := hbuiltin (g := .mult) (by decide) (by decide)
    rw [reduce_exponents (Algebras.owner?_exponents ha rfl)]
    exact ⟨hf, hlen, by simp [h₁, h₂], hsplit⟩
  | sum hx hp _ _ =>
    obtain ⟨h₁, h₂, hsplit⟩ := ht.reduce_xor hx hp
    obtain ⟨hf, hlen⟩ := hbuiltin (g := .xor) (by decide) (by decide)
    rw [Theory.reduce_xor (Algebras.owner?_xor hx rfl)]
    exact ⟨hf, hlen, by simp [h₁, h₂], hsplit⟩
  | union hm hp hts hus =>
    obtain ⟨h₁, h₂, hsplit⟩ := ht.reduce_union hm hp hts hus
    obtain ⟨hf, hlen⟩ := hbuiltin (g := .union) (by decide) (by decide)
    rw [reduce_multisets (Algebras.owner?_multisets hm)]
    exact ⟨hf, hlen, by simp [h₁, h₂], hsplit⟩

end Splits

theorem mem_decompose_exp (ha : T.algebras.exponents = true) {b e : Term} :
    [b, e] ∈ T.decompose (.app .exp [b, e]) := by
  rw [decompose, Algebras.owner?_exponents ha rfl]
  exact List.mem_cons_self ..

theorem mem_decompose_power (ha : T.algebras.exponents = true) {b e : Term} {ts us : List Term}
    (hp : (ts ++ us).Perm (Exponent.factors e)) (hts : ts ≠ []) (hus : us ≠ [])
    (hlen : (Exponent.factors e).length ≤ Exponent.maxSplitFactors) :
    [.app .exp [b, Exponent.product ts], Exponent.product us] ∈ T.decompose (.app .exp [b, e]) := by
  obtain ⟨mask, hmask, hones, hzeros⟩ := exists_splitByMask hp.symm
  have hsum := hp.length_eq
  rw [List.length_append] at hsum
  have hpos₁ := List.length_pos_iff.2 hts
  have hpos₂ := List.length_pos_iff.2 hus
  have hfirst : mask ≠ 0 := by
    rintro rfl
    rw [splitByMask_zero] at hones
    exact hts hones.nil_eq.symm
  have hlast : mask ≠ 2 ^ (Exponent.factors e).length - 1 := by
    rintro rfl
    rw [splitByMask_ones] at hzeros
    exact hus hzeros.nil_eq.symm
  rw [decompose, Algebras.owner?_exponents ha rfl]
  refine List.mem_cons_of_mem _ ?_
  rw [if_pos ⟨by omega, hlen⟩]
  refine List.mem_map.2 ⟨mask - 1, List.mem_range.2 (?_ : mask - 1 < 2 ^ _ - 2), ?_⟩
  · omega
  · rw [Nat.sub_add_cancel (Nat.pos_of_ne_zero hfirst)]
    simp only [Exponent.product_eq_of_perm hones, Exponent.product_eq_of_perm hzeros]

end Theory

/-! ## Derivable terms -/

namespace Knowledge

variable {K : Knowledge} {T : Theory} {n : Nat} {t : Term}

/-- A derivable term is known, a public name, or put together from parts that are derivable with a
level less. -/
theorem derivable_iff : K.derivable T n t = true ↔ K.contains t = true ∨
    (∃ name, t = .name (.pub name)) ∨ ∃ f as parts m, n = m + 1 ∧ t = .app f as ∧
      parts ∈ T.decompose (.app f as) ∧ ∀ p ∈ parts, K.derivable T m p = true := by
  cases n <;> rcases t with v | ⟨_ | _⟩ | ⟨f, as⟩ <;> simp [derivable]

theorem derivable_of_contains (h : K.contains t = true) : K.derivable T n t = true :=
  derivable_iff.2 (.inl h)

theorem derivable_of_decompose {f : Symbol} {as parts : List Term}
    (hparts : parts ∈ T.decompose (.app f as)) (h : ∀ p ∈ parts, K.derivable T n p = true) :
    K.derivable T (n + 1) (.app f as) = true :=
  derivable_iff.2 (.inr (.inr ⟨f, as, parts, n, rfl, rfl, hparts, h⟩))

theorem derivable_le : ∀ {n m : Nat} {t : Term}, K.derivable T n t = true → n ≤ m →
    K.derivable T m t = true
  | n, m, t, h, hle => by
    rcases derivable_iff.1 h with h | h | ⟨f, as, parts, k, rfl, rfl, hparts, hall⟩
    · exact derivable_of_contains h
    · exact derivable_iff.2 (.inr (.inl h))
    · obtain ⟨m, rfl⟩ : ∃ m', m = m' + 1 := ⟨m - 1, by omega⟩
      exact derivable_of_decompose hparts fun p hp =>
        derivable_le (hall p hp) (Nat.le_of_succ_le_succ hle)

/-- What holds of the known messages and of the public names, and of a message if it holds of the parts
of a decomposition, holds of all derivable messages. -/
theorem derivable_parts_induction (hT : T.Standard) {P : Term → Prop}
    (hknown : ∀ t, T.Message t → K.contains t = true → P t) (hpub : ∀ name, P (.name (.pub name)))
    (hbuild : ∀ f as parts, T.Message (.app f as) → parts ∈ T.decompose (.app f as) →
      (∀ p ∈ parts, T.Message p ∧ P p) → P (.app f as)) :
    ∀ {n : Nat} {t : Term}, T.Message t → K.derivable T n t = true → P t := by
  intro n
  induction n with
  | zero =>
    intro t ht h
    rcases derivable_iff.1 h with h | ⟨name, rfl⟩ | ⟨_, _, _, m, hm, -⟩
    · exact hknown t ht h
    · exact hpub name
    · cases hm
  | succ n ih =>
    intro t ht h
    rcases derivable_iff.1 h with h | ⟨name, rfl⟩ | ⟨f, as, parts, m, hm, rfl, hparts, hall⟩
    · exact hknown t ht h
    · exact hpub name
    · cases hm
      obtain ⟨-, -, hmessages, -⟩ := (Theory.splits_of_mem_decompose hT ht hparts).reduce hT ht
      exact hbuild f as parts ht hparts fun p hp =>
        ⟨hmessages p hp, ih (hmessages p hp) (hall p hp)⟩

/-- Messages that are closed under putting parts together include what is derivable from them. -/
theorem derivable_induction (hT : T.Standard) {P : Term → Prop}
    (hknown : ∀ t, K.contains t = true → P t) (hpub : ∀ name, P (.name (.pub name)))
    (hbuild : ∀ f as, T.signature.isPublic f = true → as.length = T.signature.arity f →
      (∀ a ∈ as, T.Message a ∧ P a) → P (T.reduce Theory.reductionLimit f as))
    (ht : T.Message t) (h : K.derivable T n t = true) : P t := by
  refine derivable_parts_induction hT (fun t _ => hknown t) hpub
    (fun f as parts ht hparts hall => ?_) ht h
  obtain ⟨hf, hlen, -, hreduce⟩ := (Theory.splits_of_mem_decompose hT ht hparts).reduce hT ht
  exact hreduce ▸ hbuild f parts hf hlen hall

end Knowledge

end ProtocolProver
