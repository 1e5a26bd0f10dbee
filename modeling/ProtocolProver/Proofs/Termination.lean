import ProtocolProver.Proofs.Messages

/-!
# When normalization ends

Normalization with no bound on the number of rule applications is a relation here: `Reduces` for a
symbol on values and `Evaluates` for a term. A bound that is high enough does not change the result
(`Reduces.reduce_eq`).

The size of a term does not grow in any algebra, except where the inverse of a product is the
product of the inverses. So rules that make terms smaller can be applied only finitely often in a
row if they do not copy variables and do not bring in inverses (`accepted_rules_end`). Rules are
accepted without these two conditions, and normalization need not end then (`accepted_rules_loop`).
-/

namespace ProtocolProver

/-! ## Sizes -/

namespace Term

/-- Each occurrence of a variable adds what its value has more than the variable. -/
theorem size_mapVars (t : Term) (ρ : Var → Term) :
    (t.mapVars ρ).size = t.size + (t.occurrences.map fun v => (ρ v).size - 1).sum := by
  induction t using induction_args with
  | var v =>
    have := (ρ v).size_pos
    simp only [mapVars, size, occurrences, List.map_cons, List.map_nil, List.sum_cons, List.sum_nil]
    omega
  | name n => rfl
  | app f as ih =>
    have hargs : sizeList (as.map (mapVars ρ)) = sizeList as
        + ((as.flatMap occurrences).map fun v => (ρ v).size - 1).sum := by
      induction as with
      | nil => rfl
      | cons a as ihs =>
        have ha := ih a List.mem_cons_self
        have has := ihs fun b hb => ih b (List.mem_cons_of_mem a hb)
        simp only [List.map_cons, sizeList, List.flatMap_cons, List.map_append, List.sum_append,
          ha, has]
        omega
    rw [mapVars_app, size, size, hargs, occurrences, occurrencesList_eq]
    omega

/-- An instance of a term that copies no variable is smaller if the term is. -/
theorem size_mapVars_lt {l r : Term} (hsize : r.size < l.size)
    (hvars : ∀ v, r.occurrences.count v ≤ l.occurrences.count v) (ρ : Var → Term) :
    (r.mapVars ρ).size < (l.mapVars ρ).size := by
  have hsub : r.occurrences.Subperm l.occurrences := List.subperm_ext_iff.2 fun v _ => hvars v
  have hsum : (r.occurrences.map fun v => (ρ v).size - 1).sum
      ≤ (l.occurrences.map fun v => (ρ v).size - 1).sum := by
    obtain ⟨vs, hperm, hvs⟩ := hsub
    rw [← (hperm.map _).sum_eq]
    exact (hvs.map _).sum_le_sum (by simp)
  rw [size_mapVars, size_mapVars]
  omega

theorem sizeList_sortTerms (ts : List Term) : sizeList (sortTerms ts) = sizeList ts := by
  rw [sizeList_eq_sum, sizeList_eq_sum]
  exact ((sortTerms_perm ts).map size).sum_eq

theorem sizeList_cancelFrom (inv : Term → Term) : ∀ (ts kept : List Term),
    sizeList (cancelFrom inv kept ts) ≤ sizeList kept + sizeList ts
  | [], kept => le_rfl
  | t :: ts, kept => by
    rw [sizeList]
    rcases cancelFrom_cons kept t ts with ⟨-, he⟩ | ⟨-, he⟩
    · have hkept : sizeList (kept.erase (inv t)) ≤ sizeList kept := by
        rw [sizeList_eq_sum, sizeList_eq_sum]
        exact (List.erase_sublist.map size).sum_le_sum (by simp)
      have ih := sizeList_cancelFrom inv ts (kept.erase (inv t))
      rw [he]
      omega
    · have ih := sizeList_cancelFrom inv ts (kept ++ [t])
      rw [sizeList_append, sizeList, sizeList] at ih
      rw [he]
      omega

/-- The parts of a term are its arguments, the term itself or none. -/
theorem sizeList_parts {t : Term} {ts : List Term} (h : ts = [] ∨ ts = [t] ∨ ∃ f, t = .app f ts) :
    sizeList ts ≤ t.size := by
  rcases h with rfl | rfl | ⟨f, rfl⟩
  · exact Nat.zero_le _
  · exact le_rfl
  · exact Nat.le_add_left _ _

/-- Terms that are joined from the parts of others are not larger if joining parts adds one symbol at
most. -/
theorem size_join {parts : Term → List Term} {join : List Term → Term}
    (hparts : ∀ t, parts t = [] ∨ parts t = [t] ∨ ∃ f, t = .app f (parts t))
    (hjoin : ∀ ts, (join ts).size ≤ 1 + sizeList ts) (as : List Term) :
    (join (as.flatMap parts)).size ≤ 1 + sizeList as := by
  have hflat : sizeList (as.flatMap parts) ≤ sizeList as := by
    induction as with
    | nil => exact le_rfl
    | cons t ts ih =>
      rw [List.flatMap_cons, sizeList_append, sizeList]
      exact Nat.add_le_add (sizeList_parts (hparts t)) ih
  have := hjoin (as.flatMap parts)
  omega

theorem size_flatForm (f : Symbol) {unit : Term} (hunit : unit.size = 1) (ts : List Term) :
    (flatForm f unit ts).size ≤ 1 + sizeList ts := by
  unfold flatForm
  split
  · exact hunit.le
  · exact Nat.le_add_left _ _
  · exact (congrArg (1 + ·) (sizeList_sortTerms ts)).le

theorem size_cancelled (inv : Term → Term) (f : Symbol) {unit : Term} (hunit : unit.size = 1)
    (ts : List Term) : (flatForm f unit (cancelFrom inv [] ts)).size ≤ 1 + sizeList ts := by
  have hcancel := sizeList_cancelFrom inv ts []
  have hflat := size_flatForm f hunit (cancelFrom inv [] ts)
  rw [sizeList] at hcancel
  omega

end Term

/-! ## Sizes in the algebras -/

namespace Exponent

open Term

theorem factors_cases (t : Term) : factors t = [] ∨ factors t = [t] ∨ ∃ f, t = .app f (factors t) := by
  unfold factors
  split
  · split_ifs <;> simp
  · simp

theorem size_product_cancel (ts : List Term) : (product (cancel ts)).size ≤ 1 + sizeList ts :=
  product_eq _ ▸ size_cancelled _ _ rfl ts

theorem size_power (b e : Term) : (power b e).size ≤ 1 + sizeList [b, e] := by
  unfold power
  split
  · simp only [sizeList]
    omega
  · split
    · rename_i f b' e'
      have hproduct := size_product_cancel (factors e' ++ factors e)
      have he := sizeList_parts (factors_cases e)
      have he' := sizeList_parts (factors_cases e')
      rw [sizeList_append] at hproduct
      dsimp only
      split_ifs <;> simp only [size, sizeList] at * <;> omega
    · exact le_rfl

/-- Only inverses can be larger than the terms that they are taken of. -/
theorem size_reduce {f : Symbol} (hf : f ≠ .inv) (as : List Term) :
    (reduce f as).size ≤ 1 + sizeList as := by
  unfold reduce
  split
  · exact size_join factors_cases size_product_cancel as
  · split
    · exact le_rfl
    · split_ifs
      · exact size_power _ _
      · exact le_rfl
    · exact le_rfl

end Exponent

namespace ExclusiveOr

open Term

theorem summands_cases (t : Term) :
    summands t = [] ∨ summands t = [t] ∨ ∃ f, t = .app f (summands t) := by
  unfold summands
  split
  · split_ifs <;> simp
  · simp

theorem size_reduce (f : Symbol) (as : List Term) : (reduce f as).size ≤ 1 + sizeList as := by
  unfold reduce
  split_ifs
  · exact size_join summands_cases (fun ts => sum_eq ts ▸ size_cancelled _ _ rfl ts) as
  · exact le_rfl

end ExclusiveOr

namespace Multiset

open Term

theorem elements_cases (t : Term) :
    elements t = [] ∨ elements t = [t] ∨ ∃ f, t = .app f (elements t) := by
  unfold elements
  split
  · split_ifs <;> simp
  · simp

theorem size_reduce (f : Symbol) (as : List Term) : (reduce f as).size ≤ 1 + sizeList as := by
  unfold reduce
  split_ifs
  · exact size_join elements_cases (fun ts => union_eq ts ▸ size_flatForm _ rfl ts) as
  · exact le_rfl

end Multiset

/-! ## Normalization without a bound -/

/-- One term is the other or stands in it. -/
inductive Term.Contains : Term → Term → Prop
  | self (t : Term) : Contains t t
  | arg {f : Symbol} {as : List Term} {a u : Term} (mem : a ∈ as) (part : Contains a u) :
      Contains (.app f as) u

namespace Theory

mutual

/-- The reduction of a symbol on values ends with the given term. -/
inductive Reduces (T : Theory) : Symbol → List Term → Term → Prop
  | algebra {f : Symbol} {as : List Term} {A : Algebra} (owner : T.algebras.owner? f = some A) :
      Reduces T f as (T.reduce 0 f as)
  | stuck {f : Symbol} {as : List Term} (free : T.algebras.owner? f = none)
      (fails : contractRoot? T.rules (.app f as) = none) : Reduces T f as (.app f as)
  | contract {f : Symbol} {as : List Term} {rhs u : Term} {σ : Subst}
      (free : T.algebras.owner? f = none)
      (applies : contractRoot? T.rules (.app f as) = some (rhs, σ))
      (value : Evaluates T σ.value rhs u) : Reduces T f as u

/-- The evaluation of a term, bottom up and with the given values of its variables, ends with the
given term. -/
inductive Evaluates (T : Theory) : (Var → Term) → Term → Term → Prop
  | var (ρ : Var → Term) (v : Var) : Evaluates T ρ (.var v) (ρ v)
  | name (ρ : Var → Term) (n : Name) : Evaluates T ρ (.name n) (.name n)
  | app {ρ : Var → Term} {f : Symbol} {as bs : List Term} {u : Term} (args : EvaluatesAll T ρ as bs)
      (root : Reduces T f bs u) : Evaluates T ρ (.app f as) u

inductive EvaluatesAll (T : Theory) : (Var → Term) → List Term → List Term → Prop
  | nil (ρ : Var → Term) : EvaluatesAll T ρ [] []
  | cons {ρ : Var → Term} {a b : Term} {as bs : List Term} (head : Evaluates T ρ a b)
      (tail : EvaluatesAll T ρ as bs) : EvaluatesAll T ρ (a :: as) (b :: bs)

end

/-- The normalization of a term ends with the given term. -/
def Normalizes (T : Theory) (t u : Term) : Prop := T.Evaluates .var t u

variable {T : Theory} {f : Symbol} {as bs : List Term} {t u : Term} {ρ : Var → Term}

theorem reduce_algebra {A : Algebra} (h : T.algebras.owner? f = some A) (n : Nat) :
    T.reduce n f as = T.reduce 0 f as := by
  cases A <;> cases n <;> simp only [reduce, h]

mutual

/-- A bound on the number of rule applications makes no difference if it is high enough. -/
theorem Reduces.reduce_eq {f : Symbol} {as : List Term} {u : Term} :
    T.Reduces f as u → ∃ n, ∀ m, n ≤ m → T.reduce m f as = u
  | .algebra owner => ⟨0, fun m _ => reduce_algebra owner m⟩
  | .stuck free fails => by
    refine ⟨0, fun m _ => ?_⟩
    cases m <;> simp only [reduce, free, fails]
  | .contract free applies value => by
    obtain ⟨n, hn⟩ := value.eval_eq
    refine ⟨n + 1, fun m hm => ?_⟩
    cases m with
    | zero => omega
    | succ m => simp only [reduce, free, applies, hn m (by omega)]

theorem Evaluates.eval_eq {ρ : Var → Term} {t u : Term} :
    T.Evaluates ρ t u → ∃ n, ∀ m, n ≤ m → t.eval ρ (T.reduce m) = u
  | .var ρ v => ⟨0, fun _ _ => rfl⟩
  | .name ρ n => ⟨0, fun _ _ => rfl⟩
  | .app args root => by
    obtain ⟨n, hn⟩ := args.evalList_eq
    obtain ⟨k, hk⟩ := root.reduce_eq
    refine ⟨max n k, fun m hm => ?_⟩
    rw [Term.eval, hn m (le_trans (le_max_left n k) hm), hk m (le_trans (le_max_right n k) hm)]

theorem EvaluatesAll.evalList_eq {ρ : Var → Term} {as bs : List Term} :
    T.EvaluatesAll ρ as bs → ∃ n, ∀ m, n ≤ m → Term.evalList ρ (T.reduce m) as = bs
  | .nil ρ => ⟨0, fun _ _ => rfl⟩
  | .cons head tail => by
    obtain ⟨n, hn⟩ := head.eval_eq
    obtain ⟨k, hk⟩ := tail.evalList_eq
    refine ⟨max n k, fun m hm => ?_⟩
    rw [Term.evalList, hn m (le_trans (le_max_left n k) hm), hk m (le_trans (le_max_right n k) hm)]

end

/-! ## Rules that cannot go on forever -/

/-- Rules that make terms smaller, do not copy variables and, where exponents are inverted, do not
bring in inverses. -/
structure Shrinking (T : Theory) : Prop where
  smaller : ∀ r ∈ T.rules, r.rhs.size < r.lhs.size
  linear : ∀ r ∈ T.rules, ∀ v, r.rhs.occurrences.count v ≤ r.lhs.occurrences.count v
  inverseFree : T.algebras.exponents = true → ∀ r ∈ T.rules, r.rhs.mentions .inv = false

/-- A term in which no inverse is taken. -/
def InverseFree (T : Theory) (t : Term) : Prop :=
  T.algebras.exponents = true → t.mentions .inv = false

theorem InverseFree.root (h : T.InverseFree (.app f as)) :
    T.algebras.exponents = true → f ≠ .inv := by
  intro ha hf
  have := h ha
  simp [Term.mentions, hf] at this

theorem InverseFree.args (h : T.InverseFree (.app f as)) : ∀ a ∈ as, T.InverseFree a := by
  intro a ha he
  have := h he
  simp only [Term.mentions, Term.mentionsList_eq, Bool.or_eq_false_iff, List.any_eq_false] at this
  exact Bool.not_eq_true _ ▸ this.2 a ha

namespace Shrinking

theorem contract_lt (hT : T.Shrinking) {rhs : Term} {σ : Subst}
    (h : contractRoot? T.rules (.app f as) = some (rhs, σ)) :
    T.InverseFree rhs ∧ (rhs.mapVars σ.value).size < 1 + Term.sizeList as := by
  obtain ⟨r, hr, rfl, hm⟩ := contractRoot?_eq_some h
  refine ⟨fun ha => hT.inverseFree ha r hr, ?_⟩
  have hsize := Term.size_mapVars_lt (hT.smaller r hr) (hT.linear r hr) σ.value
  rwa [(matchTerm_sound hm).2.2] at hsize

theorem size_algebra {A : Algebra} (owner : T.algebras.owner? f = some A)
    (hf : T.algebras.exponents = true → f ≠ .inv) (as : List Term) :
    (T.reduce 0 f as).size ≤ 1 + Term.sizeList as := by
  rcases T.algebras.owner?_cases f with ⟨ho, ha, -⟩ | ⟨ho, -⟩ | ⟨ho, -⟩ | ho
  · rw [reduce_exponents ho]
    exact Exponent.size_reduce (hf ha) as
  · rw [reduce_xor ho]
    exact ExclusiveOr.size_reduce f as
  · rw [reduce_multisets ho]
    exact Multiset.size_reduce f as
  · rw [ho] at owner
    cases owner

end Shrinking

mutual

/-- Where no inverse is taken, reductions do not make terms larger. -/
theorem Reduces.size_le (hT : T.Shrinking) {f : Symbol} {as : List Term} {u : Term}
    (hf : T.algebras.exponents = true → f ≠ .inv) :
    T.Reduces f as u → u.size ≤ 1 + Term.sizeList as
  | .algebra owner => Shrinking.size_algebra owner hf as
  | .stuck _ _ => le_rfl
  | .contract _ applies value => by
    obtain ⟨hfree, hlt⟩ := hT.contract_lt applies
    exact (value.size_le hT hfree).trans hlt.le

theorem Evaluates.size_le (hT : T.Shrinking) {ρ : Var → Term} {t u : Term} (ht : T.InverseFree t) :
    T.Evaluates ρ t u → u.size ≤ (t.mapVars ρ).size
  | .var _ _ => le_rfl
  | .name _ _ => le_rfl
  | .app args root => by
    have hargs := args.size_le hT ht.args
    have hroot := root.size_le hT ht.root
    rw [Term.mapVars_app, Term.size]
    omega

theorem EvaluatesAll.size_le (hT : T.Shrinking) {ρ : Var → Term} {as bs : List Term}
    (has : ∀ a ∈ as, T.InverseFree a) :
    T.EvaluatesAll ρ as bs → Term.sizeList bs ≤ Term.sizeList (as.map (Term.mapVars ρ))
  | .nil _ => le_rfl
  | .cons head tail => by
    have hhead := head.size_le hT (has _ List.mem_cons_self)
    have htail := tail.size_le hT fun a ha => has a (List.mem_cons_of_mem _ ha)
    rw [List.map_cons, Term.sizeList, Term.sizeList]
    omega

end

namespace Shrinking

theorem exists_evaluatesAll : ∀ {as : List Term}, (∀ a ∈ as, ∃ b, T.Evaluates ρ a b) →
    ∃ bs, T.EvaluatesAll ρ as bs
  | [], _ => ⟨[], .nil ρ⟩
  | a :: as, h => by
    obtain ⟨b, hb⟩ := h a List.mem_cons_self
    obtain ⟨bs, hbs⟩ := exists_evaluatesAll fun c hc => h c (List.mem_cons_of_mem a hc)
    exact ⟨b :: bs, .cons hb hbs⟩

/-- The evaluation of a term whose instance is small enough ends if reductions of that size do. -/
theorem exists_evaluates (hT : T.Shrinking) {n : Nat}
    (ih : ∀ (f : Symbol) (as : List Term), 1 + Term.sizeList as < n → ∃ u, T.Reduces f as u)
    (ρ : Var → Term) (t : Term) (ht : T.InverseFree t) (hn : (t.mapVars ρ).size < n) :
    ∃ u, T.Evaluates ρ t u := by
  induction t using Term.induction_args with
  | var v => exact ⟨_, .var ρ v⟩
  | name m => exact ⟨_, .name ρ m⟩
  | app f as iht =>
    rw [Term.mapVars_app, Term.size] at hn
    have hargs : ∀ a ∈ as, ∃ b, T.Evaluates ρ a b := by
      intro a ha
      have hsize := Term.size_le_sizeList (List.mem_map_of_mem (f := Term.mapVars ρ) ha)
      exact iht a ha (ht.args a ha) (by omega)
    obtain ⟨bs, hbs⟩ := exists_evaluatesAll hargs
    have hsize := hbs.size_le hT ht.args
    obtain ⟨u, hu⟩ := ih f bs (by omega)
    exact ⟨u, .app hbs hu⟩

/-- Every reduction ends. The induction is on the size of the term that is reduced. -/
theorem exists_reduces (hT : T.Shrinking) (f : Symbol) (as : List Term) :
    ∃ u, T.Reduces f as u := by
  obtain ⟨n, hn⟩ : ∃ n, 1 + Term.sizeList as = n := ⟨_, rfl⟩
  induction n using Nat.strong_induction_on generalizing f as with
  | _ n ih =>
    cases ho : T.algebras.owner? f with
    | some A => exact ⟨_, .algebra ho⟩
    | none =>
      cases hc : contractRoot? T.rules (.app f as) with
      | none => exact ⟨_, .stuck ho hc⟩
      | some p =>
        obtain ⟨hfree, hlt⟩ := hT.contract_lt hc
        obtain ⟨u, hu⟩ := hT.exists_evaluates (fun g bs h => ih _ h g bs rfl) p.2.value p.1 hfree
          (hn ▸ hlt)
        exact ⟨u, .contract ho hc hu⟩

theorem exists_normalizes (hT : T.Shrinking) (t : Term) : ∃ u, T.Normalizes t u := by
  induction t using Term.induction_args with
  | var v => exact ⟨_, .var _ v⟩
  | name n => exact ⟨_, .name _ n⟩
  | app f as ih =>
    obtain ⟨bs, hbs⟩ := exists_evaluatesAll ih
    obtain ⟨u, hu⟩ := hT.exists_reduces f bs
    exact ⟨u, .app hbs hu⟩

end Shrinking

/-! ## Sequences of rewrites at the root -/

/-- A symbol on values is rewritten by a rule, and then some application in the right side comes up,
on the values of its arguments. -/
inductive RootStep (T : Theory) : Term → Term → Prop
  | intro {f g : Symbol} {as ps bs : List Term} {rhs : Term} {σ : Subst}
      (free : T.algebras.owner? f = none)
      (applies : contractRoot? T.rules (.app f as) = some (rhs, σ))
      (part : rhs.Contains (.app g ps)) (args : T.EvaluatesAll σ.value ps bs) :
      RootStep T (.app f as) (.app g bs)

/-- Rewrites at the root follow one another forever. -/
def Endless (T : Theory) (t : Term) : Prop :=
  ∃ s : Nat → Term, s 0 = t ∧ ∀ i, T.RootStep (s i) (s (i + 1))

theorem EvaluatesAll.unique {bs' : List Term} (h : T.EvaluatesAll ρ as bs)
    (h' : T.EvaluatesAll ρ as bs') : bs = bs' := by
  obtain ⟨n, hn⟩ := h.evalList_eq
  obtain ⟨k, hk⟩ := h'.evalList_eq
  rw [← hn (max n k) (le_max_left n k), hk (max n k) (le_max_right n k)]

mutual

theorem Reduces.acc {f : Symbol} {as : List Term} {u : Term} :
    T.Reduces f as u → Acc (fun u t => T.RootStep t u) (.app f as)
  | .algebra owner => .intro _ fun v hv => by
    cases hv with
    | intro free => exact nomatch owner.symm.trans free
  | .stuck _ fails => .intro _ fun v hv => by
    cases hv with
    | intro _ applies => exact nomatch fails.symm.trans applies
  | .contract _ applies value => .intro _ fun v hv => by
    cases hv with
    | intro _ applies' part args =>
      cases applies.symm.trans applies'
      exact value.acc_part part args

theorem Evaluates.acc_part {ρ : Var → Term} {t u : Term} {g : Symbol} {ps bs : List Term} :
    T.Evaluates ρ t u → t.Contains (.app g ps) → T.EvaluatesAll ρ ps bs →
      Acc (fun u t => T.RootStep t u) (.app g bs)
  | .app args root, .self _, hps => args.unique hps ▸ root.acc
  | .app args _, .arg mem part, hps => args.acc_part mem part hps

theorem EvaluatesAll.acc_part {ρ : Var → Term} {as cs : List Term} {a : Term} {g : Symbol}
    {ps bs : List Term} : T.EvaluatesAll ρ as cs → a ∈ as → a.Contains (.app g ps) →
      T.EvaluatesAll ρ ps bs → Acc (fun u t => T.RootStep t u) (.app g bs)
  | .cons head _, .head _, part, hps => head.acc_part part hps
  | .cons _ tail, .tail _ mem, part, hps => tail.acc_part mem part hps

end

theorem not_endless_of_acc (h : Acc (fun u t => T.RootStep t u) t) : ¬T.Endless t := by
  induction h with
  | intro t _ ih =>
    rintro ⟨s, rfl, hs⟩
    exact ih (s 1) (hs 0) ⟨fun i => s (i + 1), rfl, fun i => hs (i + 1)⟩

theorem Endless.not_normalizes (h : T.Endless (.app f as)) (has : T.EvaluatesAll .var as as) :
    ∀ u, ¬T.Normalizes (.app f as) u := by
  intro u hu
  cases hu with
  | app args root =>
    cases has.unique args
    exact not_endless_of_acc root.acc h

theorem Shrinking.not_endless (hT : T.Shrinking) (t : Term) : ¬T.Endless t := by
  have hacc : Acc (fun u t => T.RootStep t u) t := by
    cases t with
    | var v => exact .intro _ fun u hu => nomatch hu
    | name n => exact .intro _ fun u hu => nomatch hu
    | app f as =>
      obtain ⟨u, hu⟩ := hT.exists_reduces f as
      exact hu.acc
  exact not_endless_of_acc hacc

/-! ## Accepted rules -/

theorem size_lt_of_validate {r : Reduction} (h : r.validate = .ok ()) :
    r.rhs.size < r.lhs.size := by
  unfold Reduction.validate at h
  simp only at h
  split at h
  · obtain ⟨_, hthrow, -⟩ := bind_eq_ok h
    cases hthrow
  · split at h
    · obtain ⟨_, hthrow, -⟩ := bind_eq_ok h
      cases hthrow
    · split at h
      · cases h
      · omega

theorem size_lt_of_ofRules {sig : Signature} {rules : List Reduction} {algebras : Algebras}
    (h : Theory.ofRules sig rules algebras = .ok T) : ∀ r ∈ rules, r.rhs.size < r.lhs.size := by
  obtain ⟨⟨⟩, hvalid, -⟩ := bind_eq_ok h
  exact fun r hr => size_lt_of_validate (of_forM_eq_ok hvalid r hr)

theorem shrinking_of_ofRules {sig : Signature} {rules : List Reduction} {algebras : Algebras}
    (h : Theory.ofRules sig rules algebras = .ok T)
    (hvars : ∀ r ∈ rules, ∀ v, r.rhs.occurrences.count v ≤ r.lhs.occurrences.count v)
    (hinv : algebras.exponents = true → ∀ r ∈ rules, r.rhs.mentions .inv = false) :
    T.Shrinking := by
  have hsize := size_lt_of_ofRules h
  obtain rfl := ofRules_eq_ok h
  refine ⟨?_, ?_, fun ha => ?_⟩
  · exact List.forall_mem_append.2 ⟨by decide, hsize⟩
  · refine List.forall_mem_append.2 ⟨fun r hr v => ?_, hvars⟩
    have hsub : ∀ r ∈ Reduction.projections, r.rhs.occurrences.Sublist r.lhs.occurrences := by
      decide
    exact (hsub r hr).count_le v
  · exact List.forall_mem_append.2 ⟨by decide, hinv ha⟩

end Theory

/-- Normalization ends under accepted rules that do not copy variables and, where exponents are
inverted, do not bring in inverses. A high enough bound on the number of rewrites is as good as
none, and there is no endless sequence of rewrites at the root. -/
theorem accepted_rules_end {sig : Signature} {rules : List Reduction} {algebras : Algebras}
    {T : Theory} (hT : Theory.ofRules sig rules algebras = .ok T)
    (hvars : ∀ r ∈ rules, ∀ v, r.rhs.occurrences.count v ≤ r.lhs.occurrences.count v)
    (hinv : algebras.exponents = true → ∀ r ∈ rules, r.rhs.mentions .inv = false) (t : Term) :
    (∃ u n, T.Normalizes t u ∧ ∀ m, n ≤ m → t.eval .var (T.reduce m) = u) ∧ ¬T.Endless t := by
  have hshrinking := Theory.shrinking_of_ofRules hT hvars hinv
  obtain ⟨u, hu⟩ := hshrinking.exists_normalizes t
  obtain ⟨n, hn⟩ := hu.eval_eq
  exact ⟨⟨u, n, hu, hn⟩, hshrinking.not_endless t⟩

/-- The built-in symbols and two more. -/
def peelSignature : Signature :=
  ⟨Signature.builtin.symbols ++ [⟨"f", 1, .pub⟩, ⟨"g", 1, .pub⟩]⟩

/-- The rule `f(g(f(x))) = x`. -/
def peelRule : Reduction :=
  let x : Term := .var (.msg "x")
  ⟨"peel", .app ⟨10⟩ [.app ⟨11⟩ [.app ⟨10⟩ [x]]], x⟩

def peelTheory : Theory :=
  ⟨peelSignature, { exponents := true }, Reduction.projections ++ [peelRule]⟩

/-- The rule ends also on values with inverses. -/
theorem accepted_rules_end_peel :
    let inverse : Term := .app .inv [.app .mult [.pubName "a", .pubName "b"]]
    let t : Term := .app ⟨10⟩ [.app ⟨11⟩ [.app ⟨10⟩ [inverse]]]
    Theory.ofRules peelSignature [peelRule] { exponents := true } = .ok peelTheory ∧
    (∃ u n, peelTheory.Normalizes t u ∧
      ∀ m, n ≤ m → t.eval .var (peelTheory.reduce m) = u) ∧ ¬peelTheory.Endless t := by
  intro inverse t
  have hT : Theory.ofRules peelSignature [peelRule] { exponents := true } =
      .ok peelTheory := rfl
  have hvars : ∀ r ∈ [peelRule], ∀ v, r.rhs.occurrences.count v ≤ r.lhs.occurrences.count v := by
    intro r hr v
    rw [List.mem_singleton.1 hr]
    exact le_rfl
  exact ⟨hT, accepted_rules_end hT hvars (by decide) t⟩

/-- A rule that copies a variable: `f(g(c), x) = f(x, x)`. -/
def copyRule : Reduction :=
  let x : Term := .var (.msg "x")
  ⟨"copy", .app ⟨10⟩ [.app ⟨11⟩ [.const ⟨12⟩], x], .app ⟨10⟩ [x, x]⟩

def copySignature : Signature :=
  ⟨Signature.builtin.symbols ++ [⟨"f", 2, .pub⟩, ⟨"g", 1, .pub⟩, ⟨"c", 0, .pub⟩]⟩

/-- A rule that gathers two inverses in one, `f(inv(x) * inv(y)) = f(inv(x * y))`. The inverse of
the product is the product of the inverses again. -/
def gatherRule : Reduction :=
  let x : Term := .var (.msg "x")
  let y : Term := .var (.msg "y")
  ⟨"gather", .app ⟨10⟩ [.app .mult [.app .inv [x], .app .inv [y]]],
    .app ⟨10⟩ [.app .inv [.app .mult [x, y]]]⟩

/-- Both rules are accepted, and both rewrite a term on normal arguments to itself, forever. -/
theorem accepted_rules_loop :
    (∃ T f as, Theory.ofRules copySignature [copyRule] {} = .ok T ∧
      T.EvaluatesAll .var as as ∧ T.Endless (.app f as) ∧ ∀ u, ¬T.Normalizes (.app f as) u) ∧
    ∃ T f as, Theory.ofRules peelSignature [gatherRule] { exponents := true } = .ok T ∧
      T.EvaluatesAll .var as as ∧ T.Endless (.app f as) ∧ ∀ u, ¬T.Normalizes (.app f as) u := by
  have endless : ∀ {T : Theory} {f : Symbol} {as : List Term}, T.EvaluatesAll .var as as →
      T.RootStep (.app f as) (.app f as) →
      T.EvaluatesAll .var as as ∧ T.Endless (.app f as) ∧ ∀ u, ¬T.Normalizes (.app f as) u := by
    intro T f as has hstep
    have hendless : T.Endless (.app f as) := ⟨fun _ => .app f as, rfl, fun _ => hstep⟩
    exact ⟨has, hendless, hendless.not_normalizes has⟩
  constructor
  · let a : Term := .app ⟨11⟩ [.const ⟨12⟩]
    let σ : Subst := .single (.msg "x") a
    let T : Theory := ⟨copySignature, {}, Reduction.projections ++ [copyRule]⟩
    have ha : T.Evaluates .var a a :=
      .app (.cons (.app (.nil _) (.stuck rfl rfl)) (.nil _)) (.stuck rfl rfl)
    have hx : T.Evaluates σ.value (.var (.msg "x")) a := .var σ.value (.msg "x")
    have happlies : contractRoot? T.rules (.app ⟨10⟩ [a, a]) = some (copyRule.rhs, σ) := rfl
    exact ⟨T, ⟨10⟩, [a, a], rfl, endless (.cons ha (.cons ha (.nil _)))
      (.intro rfl happlies (.self _) (.cons hx (.cons hx (.nil _))))⟩
  · let a : Term := .app .inv [.pubName "a"]
    let b : Term := .app .inv [.pubName "b"]
    let σ : Subst := (Subst.single (.msg "x") (.pubName "a")).insert (.msg "y") (.pubName "b")
    let T : Theory :=
      ⟨peelSignature, { exponents := true }, Reduction.projections ++ [gatherRule]⟩
    have hab : T.Evaluates .var (.app .mult [a, b]) (.app .mult [a, b]) :=
      .app (.cons (.app (.cons (.name _ _) (.nil _)) (.algebra rfl))
        (.cons (.app (.cons (.name _ _) (.nil _)) (.algebra rfl)) (.nil _))) (.algebra rfl)
    have hxy : T.Evaluates σ.value (.app .inv [.app .mult [.var (.msg "x"), .var (.msg "y")]])
        (.app .mult [a, b]) :=
      .app (.cons (.app (.cons (.var _ _) (.cons (.var _ _) (.nil _))) (.algebra rfl)) (.nil _))
        (.algebra rfl)
    have happlies : contractRoot? T.rules (.app ⟨10⟩ [.app .mult [a, b]]) =
        some (gatherRule.rhs, σ) := rfl
    exact ⟨T, ⟨10⟩, [.app .mult [a, b]], rfl, endless (.cons hab (.nil _))
      (.intro rfl happlies (.self _) (.cons hxy (.nil _)))⟩

end ProtocolProver
