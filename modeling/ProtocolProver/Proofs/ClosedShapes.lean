import ProtocolProver.Proofs.Exponents
import ProtocolProver.Proofs.Matching

/-!
# Normal forms of terms of a shape

A theory closes a shape if its rules and the symbols of its algebras are within it. Normal forms then
keep the shape (`Closes.has_normalize`), and so do the values of a substitution to which a binding is
added (`Closes.within_bind`).
-/

namespace ProtocolProver

namespace TermSort

theorem admits_trans {s t u : TermSort} (h : s.admits t = true) (h' : t.admits u = true) :
    s.admits u = true := by
  revert h h'
  cases s <;> cases t <;> cases u <;> decide

theorem admits_self (s : TermSort) : s.admits s = true := by
  cases s <;> rfl

theorem eq_msg_of_admits {s : TermSort} (h : s.admits .msg = true) : s = .msg := by
  cases s <;> first | rfl | cases h

end TermSort

/-! ## Substitutions -/

theorem Subst.get?_bind (normalize : Term → Term) (σ : Subst) (x y : Var) (t : Term) :
    (σ.bind normalize x t).get? y =
      if y = x then some (normalize (σ.apply t))
      else (σ.get? y).map fun u =>
        if u.occurs x then normalize ((single x (normalize (σ.apply t))).apply u) else u := by
  simp only [bind, SortedMap.get?_insert, SortedMap.get?_mapValues]

theorem Subst.forall_get?_bind {normalize : Term → Term} {σ : Subst} {x : Var} {t : Term}
    {Q : Var → Term → Prop} (h : ∀ y u, σ.get? y = some u → Q y u) (hx : Q x (normalize (σ.apply t)))
    (hput : ∀ y u, Q y u → Q y (normalize ((single x (normalize (σ.apply t))).apply u))) :
    ∀ y u, (σ.bind normalize x t).get? y = some u → Q y u := by
  intro y u hu
  rw [get?_bind] at hu
  split at hu
  · rename_i hy
    cases hu
    exact hy ▸ hx
  · obtain ⟨w, hw, rfl⟩ := Option.map_eq_some_iff.1 hu
    split
    · exact hput y w (h y w hw)
    · exact h y w hw

/-- Every value has the shape and the sort of its variable. -/
def Subst.Within (σ : Subst) (P : Shape) : Prop :=
  ∀ v t, σ.get? v = some t → t.Has P ∧ v.sort.admits t.sort = true

namespace Subst.Within

variable {P : Shape} {σ : Subst}

theorem empty : (∅ : Subst).Within P := nofun

theorem insert (h : σ.Within P) {v : Var} {t : Term} (ht : t.Has P)
    (hs : v.sort.admits t.sort = true) : Subst.Within (SortedMap.insert σ v t) P := by
  intro w u hu
  rw [SortedMap.get?_insert] at hu
  split at hu
  · rename_i hw
    cases hu
    exact ⟨ht, hw ▸ hs⟩
  · exact h w u hu

theorem filterKeys (h : σ.Within P) (p : Var → Bool) :
    Subst.Within (SortedMap.filterKeys p σ) P := by
  intro w u hu
  rw [SortedMap.get?_filterKeys] at hu
  split at hu
  · exact h w u hu
  · cases hu

theorem value_of_var (h : σ.Within P) {v : Var} (hv : P.var v) : (σ.value v).Has P := by
  cases ht : σ.get? v with
  | none => rw [Subst.value, ht]; exact .var hv
  | some t => rw [Subst.value_of_get? ht]; exact (h v t ht).1

theorem value (h : σ.Within P) (hv : ∀ v, P.var v) (v : Var) : (σ.value v).Has P :=
  h.value_of_var (hv v)

theorem sort_value (h : σ.Within P) (v : Var) : v.sort.admits (σ.value v).sort = true := by
  cases ht : σ.get? v with
  | none => rw [Subst.value, ht]; exact TermSort.admits_self _
  | some t => rw [Subst.value_of_get? ht]; exact (h v t ht).2

theorem has_apply (h : σ.Within P) (hv : ∀ v, P.var v) {t : Term} (ht : t.Has P) :
    (σ.apply t).Has P :=
  ht.mapVars (fun v _ => h.value hv v) (fun _ h => h) fun _ _ h => h

theorem sort_apply (h : σ.Within P) {s : TermSort} {t : Term} (hs : s.admits t.sort = true) :
    s.admits (σ.apply t).sort = true := by
  cases t with
  | var v => exact TermSort.admits_trans hs (h.sort_value v)
  | name n => exact hs
  | app f as => exact hs

end Subst.Within

/-- Variables of the shape are given values of the shape and of the right sorts. -/
def Subst.Over (σ : Subst) (P : Shape) : Prop :=
  ∀ x t, σ.get? x = some t → P.var x ∧ t.Has P ∧ x.sort.admits t.sort = true

namespace Subst.Over

variable {P : Shape} {σ : Subst}

theorem empty : (∅ : Subst).Over P := nofun

theorem within (h : σ.Over P) : σ.Within P := fun x t ht => (h x t ht).2

theorem value (h : σ.Over P) {x : Var} (hx : P.var x) : (σ.value x).Has P :=
  h.within.value_of_var hx

theorem apply (h : σ.Over P) {t : Term} (ht : t.Has P) : (σ.apply t).Has P :=
  ht.mapVars (fun _ hx => h.value (ht.var_of_mem hx)) (fun _ h => h) fun _ _ h => h

theorem insert (h : σ.Over P) {x : Var} {t : Term} (hx : P.var x) (ht : t.Has P)
    (hs : x.sort.admits t.sort = true) : Subst.Over (SortedMap.insert σ x t) P := by
  intro y u hu
  rw [SortedMap.get?_insert] at hu
  split at hu
  · rename_i hy
    cases hu
    exact hy ▸ ⟨hx, ht, hs⟩
  · exact h y u hu

theorem value_of_not (h : σ.Over P) {x : Var} (hx : ¬P.var x) : σ.value x = .var x := by
  rw [Subst.value]
  cases ht : σ.get? x with
  | none => rfl
  | some t => exact absurd (h x t ht).1 hx

end Subst.Over

theorem matchTerm_within {P : Shape} {p t : Term} {σ τ : Subst} (h : matchTerm p t σ = .ok τ)
    (ht : t.Has P) (hσ : σ.Within P) : τ.Within P :=
  matchTerm_bindings (fun _ _ h => (Term.has_app.1 h).2) h ht (fun _ _ _ hu hs => ⟨hu, hs⟩) hσ

/-- What matching binds to parts of terms of a shape has that shape. -/
theorem matchTerms_within {P : Shape} {ps ts : List Term} {σ τ : Subst}
    (h : matchTerms ps ts σ = .ok τ) (ht : ∀ t ∈ ts, t.Has P) (hσ : σ.Within P) : τ.Within P :=
  matchTerms_bindings (fun _ _ h => (Term.has_app.1 h).2) h ht (fun _ _ _ _ _ hu hs => ⟨hu, hs⟩) hσ

/-! ## Closed shapes -/

/-- What the rules of a theory contract to and the symbols of its algebras are within the shape. -/
structure Theory.Keeps (T : Theory) (P : Shape) : Prop where
  exponents : T.algebras.exponents = true →
    P.app .exp 2 ∧ P.app .inv 1 ∧ P.app .one 0 ∧ ∀ n, P.app .mult n
  xor : T.algebras.xor = true → P.app .zero 0 ∧ ∀ n, P.app .xor n
  multisets : T.algebras.multisets = true → ∀ n, P.app .union (n + 1)
  contract : ∀ r ∈ T.rules, r.rhs.Has { P with var := fun v => P.var v ∨ v ∈ r.lhs.occurrences }

/-- The rules of a theory and the symbols of its algebras are within the shape. -/
structure Theory.Closes (T : Theory) (P : Shape) : Prop where
  var : ∀ v, P.var v
  exponents : T.algebras.exponents = true →
    P.app .exp 2 ∧ P.app .inv 1 ∧ P.app .one 0 ∧ ∀ n, P.app .mult n
  xor : T.algebras.xor = true → P.app .zero 0 ∧ ∀ n, P.app .xor n
  multisets : T.algebras.multisets = true → ∀ n, P.app .union (n + 1)
  rules : ∀ r ∈ T.rules, (∀ a ∈ r.lhs.args, a.Has P) ∧ r.rhs.Has P

theorem Theory.Closes.keeps {T : Theory} {P : Shape} (hT : T.Closes P) : T.Keeps P :=
  ⟨hT.exponents, hT.xor, hT.multisets, fun r hr =>
    (hT.rules r hr).2.mono (fun _ => .inl) (fun _ h => h) fun _ _ h => h⟩

/-- Both sides of every equation have the shape. -/
def EquationsHave (P : Shape) (eqs : List Equation) : Prop := ∀ e ∈ eqs, e.1.Has P ∧ e.2.Has P

theorem Term.Has.args {P : Shape} {t : Term} (h : t.Has P) : ∀ a ∈ t.args, a.Has P := by
  cases h with
  | var => exact nofun
  | name => exact nofun
  | app _ h => exact h

theorem Term.Has.of_part {P : Shape} {t u : Term} (ht : t.Has P) (h : u ∈ Exponent.factors t ∨
    u ∈ ExclusiveOr.summands t ∨ u ∈ Multiset.elements t) : u.Has P :=
  (mem_args_of_part h).elim (fun he => he ▸ ht) (ht.args u)

theorem mem_picks {α : Type} {a : α} {rest : List α} : ∀ {l : List α},
    (a, rest) ∈ picks l → a ∈ l ∧ ∀ b ∈ rest, b ∈ l
  | x :: xs, h => by
    rcases List.mem_cons.1 h with h | h
    · cases h
      exact ⟨List.mem_cons_self .., fun b hb => List.mem_cons_of_mem _ hb⟩
    · obtain ⟨⟨b, bs⟩, hb, he⟩ := List.mem_map.1 h
      cases he
      obtain ⟨ha, hrest⟩ := mem_picks hb
      refine ⟨List.mem_cons_of_mem _ ha, fun c hc => ?_⟩
      rcases List.mem_cons.1 hc with rfl | hc
      · exact List.mem_cons_self ..
      · exact List.mem_cons_of_mem _ (hrest c hc)

theorem mem_splitByMask {α : Type} {a : α} : ∀ {mask : Nat} {l : List α},
    a ∈ (splitByMask mask l).1 ∨ a ∈ (splitByMask mask l).2 → a ∈ l
  | _, [], h => by simp [splitByMask] at h
  | mask, x :: xs, h => by
    have ih := @mem_splitByMask α a (mask / 2) xs
    unfold splitByMask at h
    simp only at h
    split at h <;> simp only [List.mem_cons] at h ⊢ <;> tauto

theorem mem_bipartitions {α : Type} {l ts us : List α} (h : (ts, us) ∈ bipartitions l) :
    (∀ t ∈ ts, t ∈ l) ∧ (∀ u ∈ us, u ∈ l) ∧ ts ≠ [] ∧ us ≠ [] := by
  cases l with
  | nil => simp [bipartitions] at h
  | cons a as =>
    unfold bipartitions at h
    simp only at h
    split at h
    · obtain ⟨mask, -, h⟩ := List.mem_filterMap.1 h
      split at h <;> cases h
      rename_i hne
      refine ⟨fun t ht => ?_, fun u hu => ?_, List.cons_ne_nil _ _, by simpa using hne⟩
      · rcases List.mem_cons.1 ht with rfl | ht
        · exact List.mem_cons_self ..
        · exact List.mem_cons_of_mem a (mem_splitByMask (.inl ht))
      · exact List.mem_cons_of_mem a (mem_splitByMask (.inr hu))
    · cases h

namespace Algebras

variable {a : Algebras} {f : Symbol}

theorem exponents_of_owner? (h : a.owner? f = some .exponents) : a.exponents = true := by
  grind [owner?]

theorem xor_of_owner? (h : a.owner? f = some .xor) : a.xor = true := by
  grind [owner?]

theorem multisets_of_owner? (h : a.owner? f = some .multisets) : a.multisets = true := by
  grind [owner?]

end Algebras

open Algebras

theorem Theory.sort_normalize {T : Theory} {s : TermSort} {t : Term}
    (h : s.admits t.sort = true) : s.admits (T.normalize t).sort = true := by
  cases t with
  | var v => exact h
  | name n => exact h
  | app f as => rw [TermSort.eq_msg_of_admits h]; rfl

theorem Subst.Over.bind {T : Theory} {P : Shape} (hT : ∀ t : Term, t.Has P → (T.normalize t).Has P)
    {σ : Subst} (h : σ.Over P) {x : Var} {t : Term} (hx : P.var x) (ht : t.Has P)
    (hs : x.sort.admits t.sort = true) : (σ.bind T.normalize x t).Over P := by
  have ht' := hT _ (h.apply ht)
  have hs' := Theory.sort_normalize (T := T) (h.within.sort_apply hs)
  have hsingle : (Subst.single x (T.normalize (σ.apply t))).Over P := .insert .empty hx ht' hs'
  refine forall_get?_bind h ⟨hx, ht', hs'⟩ fun y u hu => ⟨hu.1, hT _ (hsingle.apply hu.2.1), ?_⟩
  exact Theory.sort_normalize (hsingle.within.sort_apply hu.2.2)

namespace Theory.Closes

variable {T : Theory} {P : Shape}

/-! ## Flat forms -/

theorem has_flatForm {f : Symbol} {unit : Term} {ts : List Term} (hunit : ts = [] → unit.Has P)
    (hf : ∀ n, P.app f (n + 1)) (h : ∀ t ∈ ts, t.Has P) : (flatForm f unit ts).Has P := by
  rcases ts with _ | ⟨a, _ | ⟨b, ts⟩⟩
  · exact hunit rfl
  · exact h a (List.mem_cons_self ..)
  · rw [flatForm.eq_3 f unit _ (by simp) (by simp)]
    refine .app (by rw [length_sortTerms]; exact hf _) fun t ht => h t (mem_sortTerms.1 ht)

section Exponents

variable (hP : P.app .exp 2 ∧ P.app .inv 1 ∧ P.app .one 0 ∧ ∀ n, P.app .mult n)

theorem has_factors {t : Term} (ht : t.Has P) : ∀ u ∈ Exponent.factors t, u.Has P :=
  fun _ hu => ht.of_part (.inl hu)

theorem has_base {t : Term} (ht : t.Has P) : (Exponent.base t).1.Has P := by
  cases ht with
  | var h => exact .var h
  | name h => exact .name h
  | @app f as hf has =>
    simp only [Exponent.base]
    split
    · cases as with
      | nil => exact .app hf has
      | cons a as => exact has a (List.mem_cons_self ..)
    · exact .app hf has

theorem mem_of_mem_cancel {t : Term} {ts : List Term} (h : t ∈ Exponent.cancel ts) : t ∈ ts := by
  rw [Exponent.cancel_eq] at h
  exact (mem_of_mem_cancelFrom h).resolve_left List.not_mem_nil

include hP

theorem has_product {ts : List Term} (h : ∀ t ∈ ts, t.Has P) : (Exponent.product ts).Has P := by
  rw [Exponent.product_eq]
  exact has_flatForm (fun _ => .app hP.2.2.1 nofun) (fun n => hP.2.2.2 _) h

theorem has_inverse {t : Term} (ht : t.Has P) : (Exponent.inverse t).Has P := by
  induction ht with
  | var h => exact .app hP.2.1 (by simpa using h)
  | name h => exact .app hP.2.1 (by simpa using h)
  | @app f as hf has ih =>
    unfold Exponent.inverse
    split
    · cases as with
      | nil => exact .app hf has
      | cons a as => exact has a (List.mem_cons_self ..)
    · split
      · exact .app hf has
      · split
        · rw [Exponent.inverseList_eq]
          refine has_product hP fun u hu => ?_
          obtain ⟨a, ha, rfl⟩ := List.mem_map.1 hu
          exact ih a ha
        · exact .app hP.2.1 fun a ha => List.mem_singleton.1 ha ▸ .app hf has

theorem has_product_cancel {ts : List Term} (h : ∀ t ∈ ts, t.Has P) :
    (Exponent.product (Exponent.cancel ts)).Has P :=
  has_product hP fun t ht => h t (mem_of_mem_cancel ht)

theorem has_exp {b e : Term} (hb : b.Has P) (he : e.Has P) : (Term.app .exp [b, e]).Has P :=
  .app hP.1 (by simp [hb, he])

theorem has_power {b e : Term} (hb : b.Has P) (he : e.Has P) : (Exponent.power b e).Has P := by
  unfold Exponent.power
  split
  · exact hb
  · split
    · rename_i f b' e'
      split
      · obtain ⟨-, hargs⟩ := Term.has_app.1 hb
        have hb' := hargs b' (by simp)
        have he' := hargs e' (by simp)
        have hfactors : ∀ t ∈ Exponent.factors e' ++ Exponent.factors e, t.Has P := fun t ht =>
          (List.mem_append.1 ht).elim (has_factors he' t) (has_factors he t)
        simp only
        split
        · exact hb'
        · exact has_exp hP hb' (has_product_cancel hP hfactors)
      · exact has_exp hP hb he
    · exact has_exp hP hb he

theorem has_reduce_exponents {f : Symbol} {as : List Term} (hf : P.app f as.length)
    (h : ∀ a ∈ as, a.Has P) : (Exponent.reduce f as).Has P := by
  unfold Exponent.reduce
  split
  · refine has_product_cancel hP fun t ht => ?_
    obtain ⟨a, ha, ht⟩ := List.mem_flatMap.1 ht
    exact has_factors (h a ha) t ht
  · split
    · split
      · exact has_inverse hP (h _ (by simp))
      · exact .app hf h
    · split
      · exact has_power hP (h _ (by simp)) (h _ (by simp))
      · exact .app hf h
    · exact .app hf h

end Exponents

section Xor

variable (hP : P.app .zero 0 ∧ ∀ n, P.app .xor n)

theorem has_summands {t : Term} (ht : t.Has P) : ∀ u ∈ ExclusiveOr.summands t, u.Has P :=
  fun _ hu => ht.of_part (.inr (.inl hu))

include hP

theorem has_sum {ts : List Term} (h : ∀ t ∈ ts, t.Has P) : (ExclusiveOr.sum ts).Has P := by
  rw [ExclusiveOr.sum_eq]
  refine has_flatForm (fun _ => .app hP.1 (List.forall_mem_nil _)) (fun n => hP.2 _) fun t ht => h t ?_
  rw [ExclusiveOr.cancel_eq] at ht
  exact (mem_of_mem_cancelFrom ht).resolve_left List.not_mem_nil

theorem has_reduce_xor {f : Symbol} {as : List Term} (hf : P.app f as.length)
    (h : ∀ a ∈ as, a.Has P) : (ExclusiveOr.reduce f as).Has P := by
  unfold ExclusiveOr.reduce
  split
  · refine has_sum hP fun t ht => ?_
    obtain ⟨a, ha, ht⟩ := List.mem_flatMap.1 ht
    exact has_summands (h a ha) t ht
  · exact .app hf h

end Xor

section Multisets

variable (hP : ∀ n, P.app .union (n + 1))

theorem has_elements {t : Term} (ht : t.Has P) : ∀ u ∈ Multiset.elements t, u.Has P :=
  fun _ hu => ht.of_part (.inr (.inr hu))

include hP

theorem has_union {ts : List Term} (hne : ts ≠ []) (h : ∀ t ∈ ts, t.Has P) :
    (Multiset.union ts).Has P := by
  rw [Multiset.union_eq]
  exact has_flatForm (fun he => absurd he hne) hP h

theorem has_reduce_multisets {f : Symbol} {as : List Term} (hf : P.app f as.length)
    (h : ∀ a ∈ as, a.Has P) : (Multiset.reduce f as).Has P := by
  unfold Multiset.reduce
  split
  · rename_i hfu
    subst hfu
    rw [Multiset.union_eq]
    refine has_flatForm (fun hnil => ?_) hP fun t ht => ?_
    -- Nothing is left only if some union was empty before, which the shape then allows.
    · cases as with
      | nil => exact .app hf h
      | cons a as =>
        obtain ⟨ha, -⟩ := List.append_eq_nil_iff.1 (List.flatMap_cons ▸ hnil)
        cases h a (List.mem_cons_self ..) with
        | var => cases ha
        | name => cases ha
        | @app g bs hg hbs =>
          simp only [Multiset.elements] at ha
          split at ha
          · subst ha
            exact .app (by simp_all) hbs
          · cases ha
    · obtain ⟨a, ha, ht⟩ := List.mem_flatMap.1 ht
      exact has_elements (h a ha) t ht
  · exact .app hf h

end Multisets

end Theory.Closes

namespace Theory

variable {T : Theory} {P : Shape}

/-! ## Normal forms -/

theorem Keeps.has_reduce (hT : T.Keeps P) (n : Nat) {f : Symbol} {as : List Term}
    (hf : P.app f as.length) (h : ∀ a ∈ as, a.Has P) : (T.reduce n f as).Has P := by
  induction n generalizing f as with
  | zero =>
    unfold reduce
    split
    · exact Closes.has_reduce_exponents (hT.exponents (exponents_of_owner? ‹_›)) hf h
    · exact Closes.has_reduce_xor (hT.xor (xor_of_owner? ‹_›)) hf h
    · exact Closes.has_reduce_multisets (hT.multisets (multisets_of_owner? ‹_›)) hf h
    · exact .app hf h
  | succ n ih =>
    unfold reduce
    split
    · exact Closes.has_reduce_exponents (hT.exponents (exponents_of_owner? ‹_›)) hf h
    · exact Closes.has_reduce_xor (hT.xor (xor_of_owner? ‹_›)) hf h
    · exact Closes.has_reduce_multisets (hT.multisets (multisets_of_owner? ‹_›)) hf h
    · split
      · rename_i rhs σ hc
        obtain ⟨r, hr, rfl, hm⟩ := contractRoot?_eq_some hc
        have hσ := matchTerm_within hm (.app hf h) .empty
        have hrhs := hT.contract r hr
        refine hrhs.eval (fun v hv => ?_) (fun _ h => h) fun _ _ => ih
        rcases hrhs.var_of_mem hv with hv | hv
        · exact hσ.value_of_var hv
        · obtain ⟨u, hu⟩ := (matchTerm_sound hm).2.1 v hv
          rw [Subst.value_of_get? hu]
          exact (hσ v u hu).1
      · exact .app hf h

theorem Keeps.has_normalize (hT : T.Keeps P) {t : Term} (ht : t.Has P) : (T.normalize t).Has P :=
  ht.eval (fun _ hv => .var (ht.var_of_mem hv)) (fun _ h => h) fun _ _ => hT.has_reduce _

namespace Closes

variable (hT : T.Closes P)

include hT

theorem has_normalize {t : Term} (ht : t.Has P) : (T.normalize t).Has P := hT.keeps.has_normalize ht

theorem has_normalize_apply {σ : Subst} (hσ : σ.Within P) {t : Term} (ht : t.Has P) :
    (T.normalize (σ.apply t)).Has P :=
  hT.has_normalize (hσ.has_apply hT.var ht)

theorem within_bind {σ : Subst} (hσ : σ.Within P) {v : Var} {t : Term} (ht : t.Has P)
    (hs : v.sort.admits t.sort = true) : (σ.bind T.normalize v t).Within P :=
  (Subst.Over.bind (fun _ => hT.has_normalize) (fun x t h => ⟨hT.var x, hσ x t h⟩) (hT.var v) ht hs).within

end Closes

end Theory

end ProtocolProver
