import ProtocolProver.Proofs.Construction

/-!
# What cancels

A product is made of the factors of both sides that have no inverse on the other side, and a sum of the
summands that only one side has.
-/

namespace ProtocolProver

namespace Exponent

/-- The factors of the exponent of a power. -/
def exponents : Term → List Term
  | .app f [_, e] => if f = .exp then factors e else []
  | _ => []

variable {s t b e : Term} {ts us : List Term}

theorem Reduced.append (hts : Reduced ts) (hus : Reduced us) (h : ∀ u ∈ us, inverse u ∉ ts) :
    Reduced (ts ++ us) := by
  refine ⟨List.forall_mem_append.2 ⟨hts.factor, hus.factor⟩, List.forall_mem_append.2
    ⟨fun t ht hi => ?_, fun u hu hi => ?_⟩⟩
  · rcases List.mem_append.1 hi with hi | hi
    · exact hts.apart t ht hi
    · exact h _ hi ((hts.factor t ht).inverse_inverse.symm ▸ ht)
  · rcases List.mem_append.1 hi with hi | hi
    · exact h u hu hi
    · exact hus.apart u hu hi

theorem mul_eq_product (hs : Element s) (ht : Element t)
    (h : Reduced (factors s ++ factors t)) : mul s t = product (factors s ++ factors t) := by
  have key := mul_product h (.refl _)
  rwa [hs.product_factors, ht.product_factors] at key

theorem mem_factors_mul (hs : Element s) (ht : Element t) :
    ∀ x ∈ factors (mul s t), x ∈ factors s ++ factors t := by
  intro x hx
  have hr : Reduced (cancel ([s, t].flatMap factors)) :=
    reduced_cancel (factor_of_mem_flatMap (by simp [hs, ht]))
  rw [mul, reduce_mult, (factors_product_perm hr).mem_iff] at hx
  simpa using Theory.Closes.mem_of_mem_cancel hx

theorem exponents_raise (hb : b.head? ≠ some .exp) : exponents (raise b e) = factors e := by
  by_cases he : e = .const .one
  · rw [raise, if_pos he, he]
    unfold exponents
    split
    · exact if_neg fun hf => hb (by rw [hf]; rfl)
    · rfl
  · rw [raise, if_neg he, exponents, if_pos rfl]

/-- What cancels between two lists of factors can be taken out of both. -/
theorem exists_cancelled (hts : Reduced ts) : ∀ {us : List Term}, Reduced us →
    ∃ cs ts' us', ts.Perm (cs ++ ts') ∧ us.Perm (cs.map inverse ++ us') ∧ Reduced (ts' ++ us')
  | [], _ => ⟨[], ts, [], .refl _, .refl _, by rwa [List.append_nil]⟩
  | u :: us, h => by
    have hu := h.factor u (List.mem_cons_self ..)
    obtain ⟨cs, ts', us', hp, hq, hr⟩ := exists_cancelled hts (h.subset fun x => List.mem_cons_of_mem u)
    by_cases hi : inverse u ∈ ts'
    · obtain ⟨ts₁, ts₂, rfl⟩ := List.append_of_mem hi
      refine ⟨inverse u :: cs, ts₁ ++ ts₂, us', ?_, ?_, hr.subset fun x hx => ?_⟩
      · exact hp.trans ((List.perm_middle.append_left cs).trans List.perm_middle)
      · rw [List.map_cons, hu.inverse_inverse]
        exact hq.cons u
      · simp only [List.mem_append, List.mem_cons] at hx ⊢
        tauto
    · refine ⟨cs, ts', u :: us', hp, (hq.cons u).trans List.perm_middle.symm, ?_⟩
      have hts' : Reduced ts' := hr.subset fun x => List.mem_append_left _
      have hus' : Reduced (u :: us') := h.subset fun x hx => by
        rcases List.mem_cons.1 hx with rfl | hx
        · exact List.mem_cons_self ..
        · exact List.mem_cons_of_mem _ (hq.mem_iff.2 (List.mem_append_right _ hx))
      refine hts'.append hus' (List.forall_mem_cons.2 ⟨hi, fun x hx hm => ?_⟩)
      exact hr.apart x (List.mem_append_right _ hx) (List.mem_append_left _ hm)

theorem mul_eq_of_cancelled {cs ts' us' : List Term} (hs : Element s) (ht : Element t)
    (hp : (factors s).Perm (cs ++ ts')) (hq : (factors t).Perm (cs.map inverse ++ us'))
    (hr : Reduced (ts' ++ us')) : mul s t = product (ts' ++ us') := by
  have hcs : ∀ c ∈ cs, Factor c := fun c hc =>
    hs.reduced.factor c (hp.mem_iff.2 (List.mem_append_left _ hc))
  refine (element_mul hs ht).eq_of_net_eq (.of_reduced hr) ?_
  rw [net_mul hs ht, net_perm hp, net_perm hq, net_perm (factors_product_perm hr), net_append,
    net_append, net_append, net_map_inverse hcs]
  abel

end Exponent

namespace ExclusiveOr

/-- The summands that another message has too. -/
def common (s t : Term) : List Term := (summands s).filter (· ∈ summands t)

/-- The summands that another message does not have. -/
def rest (s t : Term) : List Term := (summands s).filter (· ∉ summands t)

variable {s t : Term}

theorem rest_append_common_perm (s t : Term) : (rest s t ++ common s t).Perm (summands s) := by
  refine (List.perm_append_comm.trans ?_).trans
    (List.filter_append_perm (· ∈ summands t) (summands s))
  rw [common, rest]
  simp only [decide_not]
  exact .refl _

theorem common_perm (hs : Element s) (ht : Element t) : (common s t).Perm (common t s) := by
  refine (List.perm_ext_iff_of_nodup (hs.reduced.nodup.filter _) (ht.reduced.nodup.filter _)).2 ?_
  intro x
  simp only [List.mem_filter, decide_eq_true_eq, and_comm]

theorem reduced_rests (hs : Element s) (ht : Element t) : Reduced (rest s t ++ rest t s) := by
  have hsub := hs.reduced.subperm (rest_append_common_perm s t)
  have htub := ht.reduced.subperm (rest_append_common_perm t s)
  refine ⟨List.forall_mem_append.2 ⟨hsub.summand, htub.summand⟩, hsub.nodup.append htub.nodup ?_⟩
  intro x hx hx'
  simp only [rest, List.mem_filter, decide_eq_true_eq] at hx hx'
  exact hx.2 hx'.1

theorem add_eq_flatForm (hs : Element s) (ht : Element t) :
    add s t = flatForm .xor (.const .zero) (rest s t ++ rest t s) := by
  have hr := reduced_rests hs ht
  refine (element_add hs ht).eq_of_parity_eq ⟨_, hr, rfl⟩ ?_
  rw [parity_add hs ht, parity_perm (summands_flatForm_perm hr.summand),
    ← parity_perm (rest_append_common_perm s t), ← parity_perm (rest_append_common_perm t s),
    parity_append, parity_append, parity_append, parity_perm (common_perm hs ht), add_add_add_comm,
    add_self_parity, add_zero]

end ExclusiveOr

end ProtocolProver
