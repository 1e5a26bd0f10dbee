import ProtocolProver.Proofs.ExactEquations

/-!
# Equations of unions

A union is known by its elements up to order, and under an instance a union has the elements of all
its parts (`Instance.elements_union`). Parts that keep their heads have themselves as only element, so
an equation of unions is solved by pairing the first part with one of the other side, or with some of
it where one of the two is a variable. What a variable has beyond its partner is called by a new
variable. If not both sides have variables, no solution is lost this way
(`Instance.exists_alternative_union`).
-/

namespace ProtocolProver

namespace Multiset

/-- The variable for what one part of a union has beyond another. -/
def surplus (i : Nat) : Var := ⟨"u", i, .msg⟩

theorem sort_surplus (i : Nat) : (surplus i).sort = .msg := rfl

/-- Two parts are equal, and so are the rests of both sides. -/
def paired (first : Term) (left : List Term) (partner : Term) (rest : List Term) : List Alternative :=
  match left.isEmpty, rest.isEmpty with
  | true, true => [⟨[(first, partner)], false⟩]
  | false, false => [⟨[(first, partner), (union left, union rest)], false⟩]
  | _, _ => []

/-- The first part has more than its partner. -/
def firstTakes (first : Term) (left : List Term) (partner : Term) (rest : List Term) (i : Nat) :
    Alternative :=
  ⟨[(first, union [partner, .var (surplus i)]), (union (left ++ [.var (surplus i)]), union rest)],
    false⟩

def partnerTakes (first : Term) (left : List Term) (partner : Term) (rest : List Term) (i : Nat) :
    Alternative :=
  ⟨[(partner, union [first, .var (surplus i)]), (union left, union (rest ++ [.var (surplus i)]))],
    false⟩

variable (first : Term) (left : List Term) (partner : Term) (rest : List Term) (s : VarSupply)

theorem pairWith_run : (pairWith first left partner rest).run s =
    (paired first left partner rest
      ++ (if first.isMsgVar && !rest.isEmpty then [firstTakes first left partner rest s.next] else [])
      ++ (if partner.isMsgVar && !left.isEmpty then
          [partnerTakes first left partner rest
            (s.next + (first.isMsgVar && !rest.isEmpty).toNat)] else []),
      ⟨s.next + (first.isMsgVar && !rest.isEmpty).toNat
        + (partner.isMsgVar && !left.isEmpty).toNat⟩) := by
  unfold pairWith
  cases first.isMsgVar && !rest.isEmpty <;> cases partner.isMsgVar && !left.isEmpty <;> rfl

theorem firstTakes_mem (hf : first.isMsgVar = true) (hr : rest ≠ []) :
    firstTakes first left partner rest s.next ∈ ((pairWith first left partner rest).run s).1 := by
  rw [pairWith_run]
  simp [hf, hr]

theorem exists_partnerTakes_mem (hp : partner.isMsgVar = true) (hl : left ≠ []) :
    ∃ i, s.next ≤ i ∧
      partnerTakes first left partner rest i ∈ ((pairWith first left partner rest).run s).1 := by
  refine ⟨s.next + (first.isMsgVar && !rest.isEmpty).toNat, Nat.le_add_right .., ?_⟩
  rw [pairWith_run]
  simp [hp, hl]

theorem next_le_pairWith : s.next ≤ ((pairWith first left partner rest).run s).2.next := by
  rw [pairWith_run]
  simp only
  omega

theorem dropCommon_perm : ∀ left right : List Term, ∃ common,
    left.Perm (common ++ (dropCommon left right).1) ∧
      right.Perm (common ++ (dropCommon left right).2)
  | [], right => ⟨[], .refl _, .refl _⟩
  | t :: left, right => by
    unfold dropCommon
    split
    · rename_i ht
      obtain ⟨common, hl, hr⟩ := dropCommon_perm left (right.erase t)
      refine ⟨t :: common, hl.cons t, ?_⟩
      exact (List.perm_cons_erase (List.contains_iff_mem.1 ht)).trans (hr.cons t)
    · obtain ⟨common, hl, hr⟩ := dropCommon_perm left right
      exact ⟨common, (hl.cons t).trans List.perm_middle.symm, hr⟩

/-- Both sides of an equation without their common parts, one of which is only a variable. -/
theorem solve_run (l r : Term) : (solve l r).run s =
    match dropCommon (elements l) (elements r) with
    | ([], []) => (.one [], s)
    | ([], _) => (.none, s)
    | (_, []) => (.none, s)
    | (first :: left, partner :: right) =>
      if left.isEmpty && first.isMsgVar then (.one [(first, union (partner :: right))], s)
      else if right.isEmpty && partner.isMsgVar then (.one [(partner, union (first :: left))], s)
      else
        let run := ((picks (partner :: right)).mapM fun p => pairWith first left p.1 p.2).run s
        (⟨run.1.flatten, !((first :: left).any Term.isMsgVar && (partner :: right).any Term.isMsgVar)⟩,
          run.2) := by
  unfold solve
  generalize dropCommon (elements l) (elements r) = parts
  obtain ⟨_ | ⟨first, left⟩, _ | ⟨partner, right⟩⟩ := parts
  · rfl
  · rfl
  · rfl
  · simp only
    split
    · rfl
    · split <;> rfl

/-- Whether there is only one part, a variable for any message. -/
def lone : List Term → Bool
  | [t] => t.isMsgVar
  | _ => false

/-- Whether an equation of unions is solved without loss. -/
def exact (T : Theory) (l r : Term) : Bool :=
  let parts := dropCommon (elements l) (elements r)
  lone parts.1 || lone parts.2 || (parts.1 ++ parts.2).all fun t => t.isMsgVar || T.firm t

theorem lone_cons (t : Term) (ts : List Term) : lone (t :: ts) = (ts.isEmpty && t.isMsgVar) := by
  cases ts <;> rfl

end Multiset

namespace Theory.Instance

variable {T : Theory} {V : Var → Prop} {ρ τ : T.Instance} {l r t : Term} {ts us : List Term}
  (hT : T.Standard) (hm : T.algebras.multisets = true)

include hm

theorem value_eq_of_perm {s : Term} (h : (ρ.elements s).Perm (τ.elements t)) :
    ρ.value s = τ.value t := by
  apply Subtype.ext
  rw [← (element_value hm ρ s).flatForm_elements, ← (element_value hm τ t).flatForm_elements]
  exact flatForm_eq_of_perm h

include hT

omit hm in
theorem elements_of_firm (hf : T.firm t = true) (hn : T.Normal t) (hp : t.Has (T.plainOver V))
    (hu : t.head? ≠ some .union) : ρ.elements t = [(ρ.value t).1] :=
  Multiset.elements_eq (by rwa [head?_value hT hf hn hp])

theorem elements_union (hne : ts ≠ []) (h : ∀ t ∈ ts, T.Flat t) :
    (ρ.elements (Multiset.union ts)).Perm (ts.flatMap ρ.elements) := by
  have hflat := Closes.has_union (hT.closes_flatShape.multisets hm) hne h
  rcases ts with _ | ⟨a, _ | ⟨b, ts⟩⟩
  · exact absurd rfl hne
  · simp [Multiset.union]
  · have hunion : Multiset.union (a :: b :: ts) = .app .union (sortTerms (a :: b :: ts)) := rfl
    rw [hunion] at hflat ⊢
    have hparts : ∀ u ∈ (sortTerms (a :: b :: ts)).flatMap ρ.elements, u.head? ≠ some .union := by
      intro u hu
      obtain ⟨c, -, hu⟩ := List.mem_flatMap.1 hu
      exact (element_value hm ρ c).ne_union u hu
    have hperm := Multiset.elements_flatForm_perm hparts
    rw [← coe_value_union hT hm hflat] at hperm
    exact hperm.trans ((sortTerms_perm _).flatMap_right _)

theorem value_eq_union (hne : ts ≠ []) (hts : ∀ u ∈ ts, T.Flat u)
    (h : (ρ.elements t).Perm (ts.flatMap ρ.elements)) : ρ.value t = ρ.value (Multiset.union ts) :=
  value_eq_of_perm hm (h.trans (elements_union hT hm hne hts).symm)

/-- An equation of unions is one of the elements of the parts that are not common. -/
theorem flatMap_dropCommon (hl : T.Normal l) (hr : T.Normal r) (heq : ρ.value l = ρ.value r) :
    ((Multiset.dropCommon (Multiset.elements l) (Multiset.elements r)).1.flatMap ρ.elements).Perm
      ((Multiset.dropCommon (Multiset.elements l) (Multiset.elements r)).2.flatMap ρ.elements) := by
  have parts : ∀ {t : Term}, T.Normal t →
      (ρ.elements t).Perm ((Multiset.elements t).flatMap ρ.elements) := by
    intro t ht
    have h := elements_union hT hm (ρ := ρ) (ht.union hm).ne_nil fun u hu =>
      hT.flat_of_normal (ht.of_part (.inr (.inr hu)))
    rwa [Multiset.union_eq, (ht.union hm).flatForm_elements] at h
  obtain ⟨common, hl', hr'⟩ := Multiset.dropCommon_perm (Multiset.elements l) (Multiset.elements r)
  have hsides : (ρ.elements l).Perm (ρ.elements r) := by
    rw [elements, heq]
    exact .refl _
  have h := ((parts hl).symm.trans hsides).trans (parts hr)
  have h := ((hl'.flatMap_right _).symm.trans h).trans (hr'.flatMap_right _)
  rw [List.flatMap_append, List.flatMap_append] at h
  exact (List.perm_append_left_iff _).1 h

omit hT in
/-- A new variable can stand for some elements of a term. -/
theorem exists_surplus {D : List Term} (hne : D ≠ []) (hD : ∀ d ∈ D, d ∈ ρ.elements t) (i : Nat) :
    ∃ τ : T.Instance, ρ.AgreesBelow τ i ∧ (τ.elements (.var (Multiset.surplus i))).Perm D := by
  have hnormal : ∀ d ∈ D, T.Normal d := fun d hd =>
    (ρ.value t).2.of_part (.inr (.inr (hD d hd)))
  have hunion : ∀ d ∈ D, d.head? ≠ some .union := fun d hd =>
    (element_value hm ρ t).ne_union d (hD d hd)
  refine ⟨ρ.set (Multiset.surplus i) (Multiset.sort_surplus i)
    ⟨_, Normal.flatForm_union hm hne hunion hnormal⟩, agreesBelow_set le_rfl, ?_⟩
  rw [elements, value_set_self]
  exact Multiset.elements_flatForm_perm hunion

/-- What a part has beyond another one is taken from the other side. -/
theorem exists_solves_surplus {x taken : Term} {side other D : List Term} {i : Nat}
    (hx : x.Has (T.plainOver (·.idx < i))) (htaken : taken.Has (T.plainOver (·.idx < i)))
    (hside : ∀ t ∈ side, t.Has (T.plainOver (·.idx < i)))
    (hother : ∀ t ∈ other, t.Has (T.plainOver (·.idx < i))) (hD : D ≠ [])
    (hxD : (ρ.elements x).Perm (ρ.elements taken ++ D))
    (hrest : (D ++ side.flatMap ρ.elements).Perm (other.flatMap ρ.elements)) :
    ∃ τ : T.Instance, ρ.AgreesBelow τ i ∧
      τ.value x = τ.value (Multiset.union [taken, .var (Multiset.surplus i)]) ∧
      τ.value (Multiset.union (side ++ [.var (Multiset.surplus i)])) =
        τ.value (Multiset.union other) := by
  obtain ⟨τ, hτ, hsurplus⟩ := exists_surplus hm (ρ := ρ) (t := x) hD
    (fun d hd => hxD.mem_iff.2 (List.mem_append_right _ hd)) i
  -- On older terms the instances agree.
  have old : ∀ {t : Term}, t.Has (T.plainOver (·.idx < i)) → τ.elements t = ρ.elements t := by
    intro t ht
    rw [elements, hτ.value fun y hy => ht.var_of_mem hy]
    rfl
  have olds : ∀ {ts : List Term}, (∀ t ∈ ts, t.Has (T.plainOver (·.idx < i))) →
      ts.flatMap τ.elements = ts.flatMap ρ.elements := fun h =>
    List.flatMap_congr fun t ht => old (h t ht)
  have flat : ∀ {ts : List Term}, (∀ t ∈ ts, t.Has (T.plainOver (·.idx < i))) →
      ∀ t ∈ ts ++ [.var (Multiset.surplus i)], T.Flat t := fun h =>
    List.forall_mem_append.2 ⟨fun t ht => flat_of_plainOver (h t ht),
      List.forall_mem_singleton.2 (.var trivial)⟩
  have hother' : other ≠ [] := by
    rintro rfl
    exact hD (List.append_eq_nil_iff.1 hrest.eq_nil).1
  refine ⟨τ, hτ, value_eq_union hT hm (by simp)
    (flat (List.forall_mem_singleton.2 htaken)) ?_, value_eq_union hT hm hother'
    (fun t ht => flat_of_plainOver (hother t ht)) ?_⟩
  · rw [List.flatMap_cons, List.flatMap_singleton, old hx, old htaken]
    exact hxD.trans (hsurplus.symm.append_left _)
  · have hne : side ++ [.var (Multiset.surplus i)] ≠ [] := by simp
    have h := elements_union hT hm (ρ := τ) hne (flat hside)
    rw [List.flatMap_append, List.flatMap_singleton, olds hside] at h
    rw [olds hother]
    exact ((h.trans (hsurplus.append_left _)).trans List.perm_append_comm).trans hrest

theorem exists_alternative_paired {first u : Term} {left rest : List Term}
    (hleft : ∀ t ∈ left, T.Flat t) (hrest : ∀ t ∈ rest, T.Flat t)
    (heq : (ρ.elements first).Perm (ρ.elements u))
    (heqs : (left.flatMap ρ.elements).Perm (rest.flatMap ρ.elements)) :
    ∃ a ∈ Multiset.paired first left u rest, ρ.Solves a.eqs := by
  have hpair := value_eq_of_perm hm heq
  by_cases hl : left = []
  · have hr : rest = [] := by
      by_contra hr
      rw [hl] at heqs
      exact flatMap_elements_ne_nil hm ρ hr heqs.nil_eq.symm
    rw [hl, hr]
    exact ⟨_, List.mem_singleton.2 rfl, List.forall_mem_singleton.2 hpair⟩
  · have hr : rest ≠ [] := by
      rintro rfl
      exact flatMap_elements_ne_nil hm ρ hl heqs.eq_nil
    have hmem : ⟨[(first, u), (Multiset.union left, Multiset.union rest)], false⟩ ∈
        Multiset.paired first left u rest := by
      rw [Multiset.paired, List.isEmpty_eq_false_iff.2 hl, List.isEmpty_eq_false_iff.2 hr]
      exact List.mem_singleton.2 rfl
    refine ⟨_, hmem, List.forall_mem_cons.2 ⟨hpair, List.forall_mem_singleton.2 ?_⟩⟩
    exact value_eq_union hT hm hr hrest ((elements_union hT hm hl hleft).trans heqs)

/-- Two parts with an element in common, one of which has no other, are paired. -/
theorem exists_alternative_pair {first u f : Term} {left rest : List Term} {s : VarSupply}
    (hfirst : first.Has (T.plainOver (·.idx < s.next))) (hu : u.Has (T.plainOver (·.idx < s.next)))
    (hleft : ∀ t ∈ left, t.Has (T.plainOver (·.idx < s.next)))
    (hrest : ∀ t ∈ rest, t.Has (T.plainOver (·.idx < s.next)))
    (heq : ((first :: left).flatMap ρ.elements).Perm ((u :: rest).flatMap ρ.elements))
    (hf : f ∈ ρ.elements first) (hf' : f ∈ ρ.elements u)
    (hvar : first.isMsgVar = true ∨ ρ.elements first = [f])
    (hvar' : u.isMsgVar = true ∨ ρ.elements u = [f])
    (hone : ρ.elements first = [f] ∨ ρ.elements u = [f]) :
    ∃ a ∈ ((Multiset.pairWith first left u rest).run s).1, ∃ τ : T.Instance,
      ρ.AgreesBelow τ s.next ∧ τ.Solves a.eqs := by
  have older : ∀ {i : Nat} {t : Term}, s.next ≤ i → t.Has (T.plainOver (·.idx < s.next)) →
      t.Has (T.plainOver (·.idx < i)) := fun hi ht =>
    plainOver_mono ht fun _ hx => lt_of_lt_of_le hx hi
  have hperm := List.perm_cons_erase hf
  have hperm' := List.perm_cons_erase hf'
  generalize (ρ.elements first).erase f = D at hperm
  generalize (ρ.elements u).erase f = D' at hperm'
  rw [List.flatMap_cons, List.flatMap_cons] at heq
  have hrests : (D ++ left.flatMap ρ.elements).Perm (D' ++ rest.flatMap ρ.elements) :=
    (((hperm.append_right _).symm.trans heq).trans (hperm'.append_right _)).cons_inv
  have hnil : ∀ {t : Term} {E : List Term}, (ρ.elements t).Perm (f :: E) → ρ.elements t = [f] →
      E = [] := by
    intro t E h ht
    rw [ht] at h
    exact h.cons_inv.nil_eq.symm
  by_cases hD : D = []
  · subst hD
    by_cases hD' : D' = []
    · -- Both parts have the one element.
      subst hD'
      obtain ⟨a, ha, hsolves⟩ := exists_alternative_paired hT hm
        (fun t ht => flat_of_plainOver (hleft t ht)) (fun t ht => flat_of_plainOver (hrest t ht))
        (hperm.trans hperm'.symm) hrests
      refine ⟨a, ?_, ρ, .refl, hsolves⟩
      rw [Multiset.pairWith_run]
      simp [ha]
    · -- The partner has more.
      have hmsg := hvar'.resolve_right fun h => hD' (hnil hperm' h)
      have hne : left ≠ [] := by
        rintro rfl
        exact hD' (List.append_eq_nil_iff.1 hrests.nil_eq.symm).1
      obtain ⟨i, hi, ha⟩ := Multiset.exists_partnerTakes_mem first left u rest s hmsg hne
      obtain ⟨τ, hτ, hpair, hsides⟩ := exists_solves_surplus hT hm (ρ := ρ) (i := i)
        (older hi hu) (older hi hfirst) (fun t ht => older hi (hrest t ht))
        (fun t ht => older hi (hleft t ht)) hD' (hperm'.trans (hperm.symm.append_right D'))
        hrests.symm
      refine ⟨_, ha, τ, fun x hx => hτ x (hx.trans_le hi), ?_⟩
      exact List.forall_mem_cons.2 ⟨hpair, List.forall_mem_singleton.2 hsides.symm⟩
  · -- The first part has more.
    have hD' : D' = [] := hnil hperm' (hone.resolve_left fun h => hD (hnil hperm h))
    subst hD'
    have hmsg := hvar.resolve_right fun h => hD (hnil hperm h)
    have hne : rest ≠ [] := by
      rintro rfl
      exact hD (List.append_eq_nil_iff.1 hrests.eq_nil).1
    obtain ⟨τ, hτ, hpair, hsides⟩ := exists_solves_surplus hT hm (ρ := ρ) hfirst hu hleft hrest hD
      (hperm.trans (hperm'.symm.append_right D)) hrests
    refine ⟨_, Multiset.firstTakes_mem first left u rest s hmsg hne, τ, hτ, ?_⟩
    exact List.forall_mem_cons.2 ⟨hpair, List.forall_mem_singleton.2 hsides⟩

/-- An element of the first part is one of some part of the other side. -/
theorem exists_alternative_picks {first : Term} {left right : List Term} {s : VarSupply}
    (hparts : ∀ t ∈ first :: left ++ right,
      t.Has (T.plainOver (·.idx < s.next)) ∧ T.Normal t ∧ t.head? ≠ some .union)
    (hfirm : ∀ t ∈ first :: left ++ right, t.isMsgVar = true ∨ T.firm t = true)
    (hvars : ((first :: left).any Term.isMsgVar && right.any Term.isMsgVar) = false)
    (heq : ((first :: left).flatMap ρ.elements).Perm (right.flatMap ρ.elements)) :
    ∃ a ∈ (((picks right).mapM fun p => Multiset.pairWith first left p.1 p.2).run s).1.flatten,
      ∃ τ : T.Instance, ρ.AgreesBelow τ s.next ∧ τ.Solves a.eqs := by
  obtain ⟨f, hf⟩ := List.exists_mem_of_ne_nil _ (elements_ne_nil hm ρ first)
  obtain ⟨u, hu, hf'⟩ := List.mem_flatMap.1 (heq.mem_iff.1 (List.mem_flatMap.2 ⟨first, by simp, hf⟩))
  obtain ⟨rest, hpick⟩ := exists_mem_picks hu
  have hmem : ∀ t ∈ rest, t ∈ right := (mem_picks hpick).2
  obtain ⟨s', hs', -, hrun⟩ := (mem_mapM_run (picks right) (fun p _ s =>
    Multiset.next_le_pairWith first left p.1 p.2 s) s).2.2 _ hpick
  have older : ∀ {t : Term}, t ∈ first :: left ++ right → t.Has (T.plainOver (·.idx < s'.next)) :=
    fun ht => plainOver_mono (hparts _ ht).1 fun _ hx => lt_of_lt_of_le hx hs'
  have single : ∀ {t : Term}, t ∈ first :: left ++ right → f ∈ ρ.elements t →
      t.isMsgVar = true ∨ ρ.elements t = [f] := by
    intro t ht hft
    refine (hfirm t ht).imp_right fun hfirm => ?_
    rw [elements_of_firm hT hfirm (hparts t ht).2.1 (hparts t ht).1 (hparts t ht).2.2] at hft ⊢
    rw [List.mem_singleton.1 hft]
  have hfirst : first ∈ first :: left ++ right := by simp
  have hu' : u ∈ first :: left ++ right := List.mem_append_right _ hu
  -- Not both can be variables.
  have hone : ρ.elements first = [f] ∨ ρ.elements u = [f] := by
    rcases single hfirst hf with h | h
    · rcases single hu' hf' with h' | h'
      · refine absurd ?_ (Bool.not_eq_true _ ▸ hvars)
        rw [Bool.and_eq_true, List.any_eq_true, List.any_eq_true]
        exact ⟨⟨first, by simp, h⟩, u, hu, h'⟩
      · exact .inr h'
    · exact .inl h
  obtain ⟨a, ha, τ, hτ, hsolves⟩ := exists_alternative_pair hT hm (ρ := ρ) (older hfirst)
    (older hu') (fun t ht => older (by simp [ht])) (fun t ht => older (by simp [hmem t ht]))
    (heq.trans ((perm_of_mem_picks hpick).flatMap_right _)) hf hf' (single hfirst hf)
    (single hu' hf') hone
  exact ⟨a, List.mem_flatten.2 ⟨_, hrun, ha⟩, τ, fun x hx => hτ x (hx.trans_le hs'), hsolves⟩

/-- No solution of an exact equation of unions is lost, if the solver claims to know all. -/
theorem exists_alternative_union {s : VarSupply} (hl : T.Normal l) (hr : T.Normal r)
    (hpl : l.Has (T.plainOver (·.idx < s.next))) (hpr : r.Has (T.plainOver (·.idx < s.next)))
    (hexact : Multiset.exact T l r = true)
    (hc : ((Multiset.solve l r).run s).1.complete = true) (heq : ρ.value l = ρ.value r) :
    ∃ a ∈ ((Multiset.solve l r).run s).1.alternatives, ∃ τ : T.Instance,
      ρ.AgreesBelow τ s.next ∧ τ.Solves a.eqs := by
  have hperm := flatMap_dropCommon hT hm hl hr heq
  have hparts : ∀ t ∈ (Multiset.dropCommon (Multiset.elements l) (Multiset.elements r)).1 ++
      (Multiset.dropCommon (Multiset.elements l) (Multiset.elements r)).2,
      t.Has (T.plainOver (·.idx < s.next)) ∧ T.Normal t ∧ t.head? ≠ some .union := by
    have part : ∀ {u t : Term}, T.Normal u → u.Has (T.plainOver (·.idx < s.next)) →
        t ∈ Multiset.elements u →
        t.Has (T.plainOver (·.idx < s.next)) ∧ T.Normal t ∧ t.head? ≠ some .union :=
      fun hn hp ht => ⟨Closes.has_elements hp _ ht, hn.of_part (.inr (.inr ht)),
        (hn.union hm).ne_union _ ht⟩
    exact List.forall_mem_append.2 ⟨fun t ht => part hl hpl (Closes.mem_dropCommon.1 ht),
      fun t ht => part hr hpr (Closes.mem_dropCommon.2 ht)⟩
  rw [Multiset.solve_run] at hc ⊢
  unfold Multiset.exact at hexact
  generalize Multiset.dropCommon (Multiset.elements l) (Multiset.elements r) = parts at *
  rcases parts with ⟨_ | ⟨first, left⟩, _ | ⟨partner, right⟩⟩
  · exact ⟨_, List.mem_singleton.2 rfl, ρ, .refl, List.forall_mem_nil _⟩
  · exact absurd hperm.nil_eq.symm (flatMap_elements_ne_nil hm ρ (by simp))
  · exact absurd hperm.eq_nil (flatMap_elements_ne_nil hm ρ (by simp))
  · simp only [Multiset.lone_cons] at hperm hexact hc hparts ⊢
    have hflat := List.forall_mem_append.1 fun t ht => flat_of_plainOver (hparts t ht).1
    split
    · rename_i hlone
      simp only [Bool.and_eq_true, List.isEmpty_iff] at hlone
      rw [hlone.1, List.flatMap_singleton] at hperm
      refine ⟨_, List.mem_singleton.2 rfl, ρ, .refl, List.forall_mem_singleton.2 ?_⟩
      exact value_eq_union hT hm (by simp) hflat.2 hperm
    · rename_i hlone
      rw [if_neg hlone] at hc
      split
      · rename_i hlone'
        simp only [Bool.and_eq_true, List.isEmpty_iff] at hlone'
        rw [hlone'.1, List.flatMap_singleton] at hperm
        refine ⟨_, List.mem_singleton.2 rfl, ρ, .refl, List.forall_mem_singleton.2 ?_⟩
        exact value_eq_union hT hm (by simp) hflat.1 hperm.symm
      · rename_i hlone'
        rw [if_neg hlone'] at hc
        rw [Bool.not_eq_true] at hlone hlone'
        rw [hlone, hlone', Bool.false_or, Bool.false_or, List.all_eq_true] at hexact
        refine exists_alternative_picks hT hm hparts (fun t ht => ?_) ?_ hperm
        · exact Bool.or_eq_true_iff.1 (hexact t ht)
        · exact (Bool.not_eq_true' _).mp hc

end Theory.Instance

namespace Theory

variable {T : Theory} {l r : Term} {s : VarSupply} (hT : T.Standard)
  (hm : T.algebras.multisets = true)

include hT hm

theorem have_solve_union (hpl : l.Has (T.plainOver (·.idx < s.next)))
    (hpr : r.Has (T.plainOver (·.idx < s.next))) :
    s.next ≤ ((Multiset.solve l r).run s).2.next ∧ ((Multiset.solve l r).run s).1.Plain
      (T.plainOver (·.idx < ((Multiset.solve l r).run s).2.next)) := by
  obtain ⟨n, hle, rfl, h⟩ := Closes.draws_solve_multisets (P := fun n => T.plainOver (·.idx < n))
    (I := fun n s => s.next = n) (fun n => (hT.keeps_plainOver (·.idx < n)).multisets hm)
    (fun n s hs => ⟨n + 1, fun _ ht => plainOver_mono ht fun _ => Nat.lt_succ_of_lt,
      congrArg (· + 1) hs, hs ▸ Nat.lt_succ_self s.next⟩) hpl hpr s rfl
  refine ⟨?_, h⟩
  cases hn : s.next with
  | zero => exact Nat.zero_le _
  | succ k =>
    exact Term.has_var.1 (hle (.var ⟨"", k, .msg⟩) (.var (hn ▸ Nat.lt_succ_self k)))

end Theory

end ProtocolProver
