import ProtocolProver.Proofs.ClosedShapes
import ProtocolProver.Theory.Unify

/-!
# Solving equations between terms of a shape

Solvers draw variables from a supply, so the terms in use grow in stages, each with a shape of its own.
`Draws` says what a computation makes of the stages. In a theory that keeps the shapes of all stages
(`Theory.Supplies`), unifiers have values of a shape and of the right sorts (`Supplies.draws_unify`),
and so has what the adversary takes terms apart into (`Supplies.draws_extract`). For a theory that
closes a shape there is one stage only (`Closes.supplies`).
-/

namespace ProtocolProver

open Algebras

/-! ## Equations -/

theorem orient_eq_some {l r t : Term} {x : Var} (h : orient l r = some (x, t)) :
    (l = .var x ∧ r = t ∨ r = .var x ∧ l = t) ∧ x.sort.admits t.sort = true := by
  unfold orient at h
  split at h
  · rename_i x y
    split at h
    · rename_i hs
      split at h <;> cases h
      · exact ⟨.inl ⟨rfl, rfl⟩, hs ▸ TermSort.admits_self _⟩
      · exact ⟨.inr ⟨rfl, rfl⟩, hs ▸ TermSort.admits_self _⟩
    · split at h
      · cases h
        exact ⟨.inl ⟨rfl, rfl⟩, ‹_›⟩
      · split at h <;> cases h
        exact ⟨.inr ⟨rfl, rfl⟩, ‹_›⟩
  · split at h <;> cases h
    rename_i hc
    exact ⟨.inl ⟨rfl, rfl⟩, (Bool.and_eq_true_iff.1 hc).1⟩
  · split at h <;> cases h
    rename_i hc
    exact ⟨.inr ⟨rfl, rfl⟩, (Bool.and_eq_true_iff.1 hc).1⟩
  · cases h

/-- Every equation of every alternative has the shape. -/
def AlternativesHave (P : Shape) (as : List Alternative) : Prop := ∀ a ∈ as, EquationsHave P a.eqs

def Solutions.Have (P : Shape) (s : Solutions) : Prop := AlternativesHave P s.alternatives

/-- All equations have the shape, and no alternative is a narrowing step. -/
def AlternativesPlain (P : Shape) (as : List Alternative) : Prop :=
  ∀ a ∈ as, a.narrowed = false ∧ EquationsHave P a.eqs

def Solutions.Plain (P : Shape) (s : Solutions) : Prop := AlternativesPlain P s.alternatives

theorem Solutions.Plain.have {P : Shape} {s : Solutions} (h : s.Plain P) : s.Have P := fun a ha => (h a ha).2

theorem EquationsHave.nil {P : Shape} : EquationsHave P [] := nofun

theorem EquationsHave.cons {P : Shape} {l r : Term} {eqs : List Equation} (hl : l.Has P)
    (hr : r.Has P) (h : EquationsHave P eqs) : EquationsHave P ((l, r) :: eqs) :=
  List.forall_mem_cons.2 ⟨⟨hl, hr⟩, h⟩

theorem EquationsHave.append {P : Shape} {eqs eqs' : List Equation} (h : EquationsHave P eqs)
    (h' : EquationsHave P eqs') : EquationsHave P (eqs ++ eqs') := fun e he =>
  (List.mem_append.1 he).elim (h e) (h' e)

theorem EquationsHave.one {P : Shape} {eqs : List Equation} (h : EquationsHave P eqs) :
    (Solutions.one eqs).Plain P := List.forall_mem_singleton.2 ⟨rfl, h⟩

theorem EquationsHave.zip {P : Shape} {as bs : List Term} (ha : ∀ a ∈ as, a.Has P)
    (hb : ∀ b ∈ bs, b.Has P) : EquationsHave P (as.zip bs) := fun _ he =>
  ⟨ha _ (List.of_mem_zip he).1, hb _ (List.of_mem_zip he).2⟩

/-! ## Drawing from a supply -/

/-- Whatever the supply, the result has the property. -/
def Yields {σ α : Type} (x : StateM σ α) (Q : α → Prop) : Prop := ∀ s, Q (x.run s).1

namespace Yields

variable {σ α β : Type} {Q : α → Prop} {R : β → Prop}

theorem pure {a : α} (h : Q a) : Yields (Pure.pure a : StateM σ α) Q := fun _ => h

theorem bind {x : StateM σ α} {f : α → StateM σ β} (hx : Yields x Q)
    (hf : ∀ a, Q a → Yields (f a) R) : Yields (x >>= f) R := fun s => hf _ (hx s) _

theorem foldlM {f : β → α → StateM σ β} : ∀ {xs : List α} {b : β},
    (∀ x ∈ xs, ∀ b, R b → Yields (f b x) R) → R b → Yields (xs.foldlM f b) R
  | [], _, _, h => .pure h
  | x :: xs, b, hf, h => by
    obtain ⟨hx, hf⟩ := List.forall_mem_cons.1 hf
    rw [List.foldlM_cons]
    exact (hx b h).bind fun _ h => foldlM hf h

end Yields

/-- Every term of the one shape has the other. -/
def Shape.Le (P Q : Shape) : Prop := ∀ t : Term, t.Has P → t.Has Q

/-- At stage `w`, the terms in use have the shape `P w`, and the supply is as `I w` says. The computation
leads to a stage whose shape has all of these terms, and the result has the property there. -/
def Draws {W α : Type} (P : W → Shape) (I : W → VarSupply → Prop) (w : W) (x : StateM VarSupply α)
    (Q : W → α → Prop) : Prop :=
  ∀ s, I w s → ∃ w', (P w).Le (P w') ∧ I w' (x.run s).2 ∧ Q w' (x.run s).1

namespace Draws

variable {W α β : Type} {P : W → Shape} {I : W → VarSupply → Prop} {w : W} {Q : W → α → Prop}
  {R : W → β → Prop}

theorem pure {a : α} (h : Q w a) : Draws P I w (Pure.pure a) Q := fun _ hs => ⟨w, fun _ => id, hs, h⟩

theorem bind {x : StateM VarSupply α} {f : α → StateM VarSupply β} (hx : Draws P I w x Q)
    (hf : ∀ w', (P w).Le (P w') → ∀ a, Q w' a → Draws P I w' (f a) R) : Draws P I w (x >>= f) R := by
  intro s hs
  obtain ⟨w₁, hw₁, hs, ha⟩ := hx s hs
  obtain ⟨w₂, hw₂, hs, hb⟩ := hf w₁ hw₁ _ ha _ hs
  exact ⟨w₂, fun t ht => hw₂ t (hw₁ t ht), hs, hb⟩

theorem mapM {f : α → StateM VarSupply β}
    (hR : ∀ {w w' : W} {b}, (P w).Le (P w') → R w b → R w' b) : ∀ {xs : List α} {w : W},
      (∀ x ∈ xs, ∀ w', (P w).Le (P w') → Draws P I w' (f x) R) →
        Draws P I w (xs.mapM f) fun w ys => ∀ y ∈ ys, R w y
  | [], _, _ => .pure (List.forall_mem_nil _)
  | x :: xs, w, h => by
    obtain ⟨hx, hxs⟩ := List.forall_mem_cons.1 h
    rw [List.mapM_cons]
    refine (hx w fun _ => id).bind fun w₁ hw₁ y hy => ?_
    refine (mapM hR fun z hz w₂ hw₂ => hxs z hz w₂ fun t ht => hw₂ t (hw₁ t ht)).bind
      fun w₂ hw₂ ys hys => ?_
    exact .pure (List.forall_mem_cons.2 ⟨hR hw₂ hy, hys⟩)

end Draws

theorem EquationsHave.mono {P Q : Shape} (h : P.Le Q) {eqs : List Equation}
    (heqs : EquationsHave P eqs) : EquationsHave Q eqs := fun e he =>
  ⟨h _ (heqs e he).1, h _ (heqs e he).2⟩

theorem AlternativesPlain.mono {P Q : Shape} (h : P.Le Q) {as : List Alternative}
    (has : AlternativesPlain P as) : AlternativesPlain Q as := fun a ha =>
  ⟨(has a ha).1, (has a ha).2.mono h⟩

theorem Subst.Over.mono {P Q : Shape} (h : P.Le Q) {σ : Subst} (hσ : σ.Over P) : σ.Over Q :=
  fun x t ht => ⟨Term.has_var.1 (h _ (.var (hσ x t ht).1)), h _ (hσ x t ht).2.1, (hσ x t ht).2.2⟩

theorem SortedMap.mem_of_get?_ofList {α β : Type} [Ord α] [Std.TransOrd α] [Std.LawfulEqOrd α]
    [DecidableEq α] {l : List (α × β)} {k : α} {v : β} (h : (ofList l).get? k = some v) :
    (k, v) ∈ l := by
  have fold : ∀ {l : List (α × β)} {m : SortedMap α β},
      (l.foldl (fun m e => m.insert e.1 e.2) m).get? k = some v → m.get? k = some v ∨ (k, v) ∈ l := by
    intro l
    induction l with
    | nil => exact fun h => .inl h
    | cons e l ih =>
      intro m h
      rcases ih h with h | h
      · rw [get?_insert] at h
        split at h
        · rename_i hk
          cases h
          exact .inr (hk ▸ List.mem_cons_self ..)
        · exact .inl h
      · exact .inr (List.mem_cons_of_mem e h)
  exact (fold h).resolve_left nofun

theorem yields_renameApart {P : Shape} (hvar : ∀ v, P.var v) (vs : List Var) :
    Yields (VarSupply.renameApart vs) (·.Within P) := by
  intro s v t ht
  obtain ⟨w, -, he⟩ := List.mem_map.1 (SortedMap.mem_of_get?_ofList ht)
  cases he
  exact ⟨.var (hvar _), TermSort.admits_self _⟩

namespace Theory.Closes

variable {T : Theory} {P : Shape} {l r : Term}

section Exponents

variable (hP : P.app .exp 2 ∧ P.app .inv 1 ∧ P.app .one 0 ∧ ∀ n, P.app .mult n)

include hP

theorem have_solvePower {b e t : Term} (hb : b.Has P) (he : e.Has P) (ht : t.Has P) :
    (Exponent.solvePower b e t).Plain P := by
  have hone : (Term.const .one).Has P := .app hP.2.2.1 nofun
  have hquotient := has_exp hP ht (has_inverse hP he)
  intro a ha
  simp only [Exponent.solvePower, List.mem_append, List.mem_ite_nil_right, List.mem_singleton] at ha
  rcases ha with ⟨-, rfl⟩ | ⟨-, rfl⟩
  · exact ⟨rfl, .cons hb hquotient .nil⟩
  · exact ⟨rfl, .cons he hone (.cons hb ht .nil)⟩

theorem have_solvePowers {b₁ e₁ b₂ e₂ : Term} (hb₁ : b₁.Has P) (he₁ : e₁.Has P) (hb₂ : b₂.Has P)
    (he₂ : e₂.Has P) : (Exponent.solvePowers b₁ e₁ b₂ e₂).Plain P := by
  have hshifted : ∀ {b e e' : Term}, b.Has P → e.Has P → e'.Has P →
      (Exponent.shifted b e e').Has P := fun hb he he' =>
    has_exp hP hb (.app (hP.2.2.2 _) (by simpa using ⟨he, has_inverse hP he'⟩))
  intro a ha
  simp only [Exponent.solvePowers, List.mem_append, List.mem_cons, List.mem_ite_nil_right,
    List.not_mem_nil, or_false] at ha
  rcases ha with (rfl | ⟨-, rfl⟩) | ⟨-, rfl⟩
  · exact ⟨rfl, .cons hb₁ hb₂ (.cons he₁ he₂ .nil)⟩
  · exact ⟨rfl, .cons hb₁ (hshifted hb₂ he₂ he₁) .nil⟩
  · exact ⟨rfl, .cons hb₂ (hshifted hb₁ he₁ he₂) .nil⟩

theorem have_exponent_absorb {ts : List Term} (h : ∀ t ∈ ts, t.Has P) {eqs : List Equation}
    (he : Exponent.absorb? ts = some eqs) : EquationsHave P eqs := by
  obtain ⟨⟨t, others⟩, hp, he⟩ := List.exists_of_findSome?_eq_some he
  obtain ⟨ht, hothers⟩ := mem_picks hp
  have hproduct := has_product hP fun u hu => h u (hothers u hu)
  have hbase := has_base (h t ht)
  simp only at he
  split at he
  · rename_i hu
    split at he <;> cases he
    rw [hu] at hbase
    refine .cons (hu ▸ hbase) ?_ .nil
    split
    · exact hproduct
    · exact has_inverse hP hproduct
  · cases he

theorem have_solveProduct (hl : l.Has P) (hr : r.Has P) : (Exponent.solveProduct l r).Plain P := by
  have hparts : ∀ t ∈ Exponent.cancel (Exponent.factors l ++ (Exponent.factors r).map
      Exponent.inverse), t.Has P := by
    intro t ht
    rcases List.mem_append.1 (mem_of_mem_cancel ht) with ht | ht
    · exact has_factors hl t ht
    · obtain ⟨u, hu, rfl⟩ := List.mem_map.1 ht
      exact has_inverse hP (has_factors hr u hu)
  unfold Exponent.solveProduct
  split
  · exact EquationsHave.nil.one
  · rename_i t ts heq
    rw [heq] at hparts
    split
    · exact (have_exponent_absorb hP hparts ‹_›).one
    · intro a ha
      obtain ⟨⟨u, others⟩, hp, ha⟩ := List.mem_filterMap.1 ha
      obtain ⟨hu, hothers⟩ := mem_picks hp
      simp only at ha
      split at ha <;> cases ha
      refine ⟨rfl, .cons (has_base (hparts t (List.mem_cons_self ..)))
        (has_base (hparts u (List.mem_cons_of_mem t hu))) ?_⟩
      split
      · exact .nil
      · exact .cons (has_product hP fun v hv => hparts v (List.mem_cons_of_mem t (hothers v hv)))
          (.app hP.2.2.1 nofun) .nil

theorem have_solve_exponents (hl : l.Has P) (hr : r.Has P) : (Exponent.solve l r).Plain P := by
  have arg : ∀ {f : Symbol} {as : List Term}, (Term.app f as).Has P → ∀ a ∈ as, a.Has P :=
    fun h => (Term.has_app.1 h).2
  unfold Exponent.solve
  split
  · split
    · exact have_solvePowers hP (arg hl _ (by simp)) (arg hl _ (by simp)) (arg hr _ (by simp))
        (arg hr _ (by simp))
    · split
      · exact have_solvePower hP (arg hl _ (by simp)) (arg hl _ (by simp)) hr
      · split
        · exact have_solvePower hP (arg hr _ (by simp)) (arg hr _ (by simp)) hl
        · exact have_solveProduct hP hl hr
  · split
    · exact have_solvePower hP (arg hl _ (by simp)) (arg hl _ (by simp)) hr
    · exact have_solveProduct hP hl hr
  · split
    · exact have_solvePower hP (arg hr _ (by simp)) (arg hr _ (by simp)) hl
    · exact have_solveProduct hP hl hr
  · exact have_solveProduct hP hl hr

end Exponents

section Xor

variable (hP : P.app .zero 0 ∧ ∀ n, P.app .xor n)

include hP

theorem have_xor_absorb {ts : List Term} (h : ∀ t ∈ ts, t.Has P) {eqs : List Equation}
    (he : ExclusiveOr.absorb? ts = some eqs) : EquationsHave P eqs := by
  obtain ⟨⟨t, others⟩, hp, he⟩ := List.exists_of_findSome?_eq_some he
  obtain ⟨ht, hothers⟩ := mem_picks hp
  simp only at he
  split at he
  · split at he <;> cases he
    exact .cons (h _ ht) (has_sum hP fun u hu => h u (hothers u hu)) .nil
  · cases he

theorem have_solve_xor (hl : l.Has P) (hr : r.Has P) : (ExclusiveOr.solve l r).Plain P := by
  have hparts : ∀ t ∈ ExclusiveOr.summands (ExclusiveOr.sum (ExclusiveOr.summands l ++
      ExclusiveOr.summands r)), t.Has P :=
    has_summands (has_sum hP fun t ht =>
      (List.mem_append.1 ht).elim (has_summands hl t) (has_summands hr t))
  unfold ExclusiveOr.solve
  split
  · exact EquationsHave.nil.one
  · rename_i t ts heq
    rw [heq] at hparts
    have ht := hparts t (List.mem_cons_self ..)
    split
    · exact (have_xor_absorb hP hparts ‹_›).one
    · split
      · exact List.forall_mem_nil _
      · exact (EquationsHave.cons ht (hparts _ (by simp)) .nil).one
      · intro a ha
        obtain ⟨⟨u, others⟩, hp, rfl⟩ := List.mem_map.1 ha
        obtain ⟨hu, hothers⟩ := mem_picks hp
        exact ⟨rfl, .cons ht (hparts u (List.mem_cons_of_mem t hu))
          (.cons (has_sum hP fun v hv => hparts v (List.mem_cons_of_mem t (hothers v hv)))
            (.app hP.1 nofun) .nil)⟩

end Xor

section Multisets

variable {W : Type} {P : W → Shape} {I : W → VarSupply → Prop} {w : W}
  (hP : ∀ w n, (P w).app .union (n + 1))
  (hfresh : ∀ w, Draws P I w (VarSupply.freshVar "u" .msg) fun w x => (P w).var x)

theorem mem_dropCommon {t : Term} : ∀ {ts us : List Term},
    (t ∈ (Multiset.dropCommon ts us).1 → t ∈ ts) ∧ (t ∈ (Multiset.dropCommon ts us).2 → t ∈ us)
  | [], us => ⟨id, id⟩
  | a :: ts, us => by
    unfold Multiset.dropCommon
    split
    · obtain ⟨h₁, h₂⟩ := @mem_dropCommon t ts (us.erase a)
      exact ⟨fun h => List.mem_cons_of_mem a (h₁ h), fun h => List.mem_of_mem_erase (h₂ h)⟩
    · obtain ⟨h₁, h₂⟩ := @mem_dropCommon t ts us
      refine ⟨fun h => ?_, h₂⟩
      rcases List.mem_cons.1 h with rfl | h
      · exact List.mem_cons_self ..
      · exact List.mem_cons_of_mem a (h₁ h)

include hP hfresh

/-- Two elements are paired, or one of them takes up the other together with a new variable. -/
theorem draws_pairWith {first partner : Term} {left rest : List Term} (hf : first.Has (P w))
    (hleft : ∀ t ∈ left, t.Has (P w)) (hp : partner.Has (P w)) (hrest : ∀ t ∈ rest, t.Has (P w)) :
    Draws P I w (Multiset.pairWith first left partner rest) fun w => AlternativesPlain (P w) := by
  have hunion := fun {w : W} {ts : List Term} => @has_union (P w) (hP w) ts
  -- One side takes up `t` and a new variable, which is then what it lacks of the rest.
  have hextra : ∀ {w' : W}, (P w).Le (P w') → ∀ {s t : Term} {ss ts : List Term}, s.Has (P w) →
      t.Has (P w) → (∀ u ∈ ss, u.Has (P w)) → (∀ u ∈ ts, u.Has (P w)) → ts ≠ [] →
        ∀ x, (P w').var x → s.Has (P w') ∧ (Multiset.union [t, .var x]).Has (P w') ∧
          (Multiset.union (ss ++ [.var x])).Has (P w') ∧ (Multiset.union ts).Has (P w') := by
    intro w' hw s t ss ts hs ht hss hts hne x hx
    refine ⟨hw s hs, hunion (by simp) ?_, hunion (by simp) ?_, hunion hne fun u hu => hw u (hts u hu)⟩
    · exact List.forall_mem_cons.2 ⟨hw t ht, List.forall_mem_singleton.2 (.var hx)⟩
    · exact List.forall_mem_append.2 ⟨fun u hu => hw u (hss u hu), List.forall_mem_singleton.2 (.var hx)⟩
  unfold Multiset.pairWith
  extract_lets paired absorb
  have hpaired : AlternativesPlain (P w) paired := by
    unfold paired
    split
    · exact List.forall_mem_singleton.2 ⟨rfl, .cons hf hp .nil⟩
    · rename_i hl hr
      rw [List.isEmpty_eq_false_iff] at hl hr
      exact List.forall_mem_singleton.2
        ⟨rfl, .cons hf hp (.cons (hunion hl hleft) (hunion hr hrest) .nil)⟩
    · exact List.forall_mem_nil _
  have habsorb : ∀ w₁, (P w).Le (P w₁) → ∀ absorbs, AlternativesPlain (P w₁) absorbs →
      Draws P I w₁ (absorb absorbs) fun w => AlternativesPlain (P w) := by
    intro w₁ hw₁ absorbs habsorbs
    have hall : ∀ w₂, (P w₁).Le (P w₂) → ∀ more, AlternativesPlain (P w₂) more →
        AlternativesPlain (P w₂) (paired ++ absorbs ++ more) := fun w₂ hw₂ more hmore =>
      List.forall_mem_append.2 ⟨List.forall_mem_append.2
        ⟨hpaired.mono fun t ht => hw₂ t (hw₁ t ht), habsorbs.mono hw₂⟩, hmore⟩
    unfold absorb
    extract_lets finish
    split
    · rename_i h
      rw [Bool.and_eq_true, Bool.not_eq_true', List.isEmpty_eq_false_iff] at h
      refine (hfresh w₁).bind fun w₂ hw₂ x hx => .pure (hall w₂ hw₂ _ ?_)
      obtain ⟨h₁, h₂, h₃, h₄⟩ := hextra (fun t ht => hw₂ t (hw₁ t ht)) hp hf hrest hleft h.2 x hx
      exact List.forall_mem_singleton.2 ⟨rfl, .cons h₁ h₂ (.cons h₄ h₃ .nil)⟩
    · exact .pure (hall w₁ (fun _ => id) _ (List.forall_mem_nil _))
  split
  · rename_i h
    rw [Bool.and_eq_true, Bool.not_eq_true', List.isEmpty_eq_false_iff] at h
    refine (hfresh w).bind fun w₁ hw₁ x hx => habsorb w₁ hw₁ _ ?_
    obtain ⟨h₁, h₂, h₃, h₄⟩ := hextra hw₁ hf hp hleft hrest h.2 x hx
    exact List.forall_mem_singleton.2 ⟨rfl, .cons h₁ h₂ (.cons h₃ h₄ .nil)⟩
  · exact habsorb w (fun _ => id) _ (List.forall_mem_nil _)

theorem draws_solve_multisets (hl : l.Has (P w)) (hr : r.Has (P w)) :
    Draws P I w (Multiset.solve l r) fun w => Solutions.Plain (P w) := by
  have hparts : ∀ t, (t ∈ (Multiset.dropCommon (Multiset.elements l) (Multiset.elements r)).1 →
      t.Has (P w)) ∧ (t ∈ (Multiset.dropCommon (Multiset.elements l) (Multiset.elements r)).2 →
      t.Has (P w)) := fun t =>
    ⟨fun h => has_elements hl t (mem_dropCommon.1 h), fun h => has_elements hr t (mem_dropCommon.2 h)⟩
  unfold Multiset.solve
  split
  · exact .pure EquationsHave.nil.one
  · exact .pure (List.forall_mem_nil _)
  · exact .pure (List.forall_mem_nil _)
  · rename_i first left partner right heq
    rw [heq] at hparts
    have hleft : ∀ t ∈ first :: left, t.Has (P w) := fun t => (hparts t).1
    have hright : ∀ t ∈ partner :: right, t.Has (P w) := fun t => (hparts t).2
    obtain ⟨hfirst, hleft'⟩ := List.forall_mem_cons.1 hleft
    obtain ⟨hpartner, hright'⟩ := List.forall_mem_cons.1 hright
    split
    · exact .pure (EquationsHave.cons hfirst (has_union (hP w) (by simp) hright) .nil).one
    · split
      · exact .pure (EquationsHave.cons hpartner (has_union (hP w) (by simp) hleft) .nil).one
      · refine (Draws.mapM (R := fun w => AlternativesPlain (P w)) (fun h has => has.mono h)
          fun p hp w₁ hw₁ => ?_).bind fun w₁ hw₁ alternatives h => .pure fun a ha => ?_
        · obtain ⟨hu, hrest⟩ := mem_picks hp
          exact draws_pairWith hP hfresh (hw₁ _ hfirst) (fun t ht => hw₁ t (hleft' t ht))
            (hw₁ _ (hright _ hu)) fun t ht => hw₁ t (hright t (hrest t ht))
        · obtain ⟨as, has, ha⟩ := List.mem_flatten.1 ha
          exact h as has a ha

end Multisets

end Theory.Closes

theorem Theory.exists_owner?_of_solver? {T : Theory} {l r : Term} {a : Algebra}
    (h : T.solver? l r = some a) : ∃ f, T.algebras.owner? f = some a := by
  rcases Option.or_eq_some_iff.1 h with h | ⟨-, h⟩ <;>
    obtain ⟨f, -, hf⟩ := Option.bind_eq_some_iff.1 h <;> exact ⟨f, hf⟩

/-! ## Unification -/

/-- The theory keeps the shapes of all stages, and what it draws has the shape of a later one. -/
structure Theory.Supplies (T : Theory) {W : Type} (P : W → Shape) (I : W → VarSupply → Prop) : Prop where
  keeps : ∀ w, T.Keeps (P w)
  fresh : ∀ name sort w, Draws P I w (VarSupply.freshVar name sort) fun w x => (P w).var x
  renamed : ∀ rule ∈ T.rules, ∀ w,
    Draws P I w rule.renamed fun w p => (∀ a ∈ p.1.args, a.Has (P w)) ∧ p.2.Has (P w)

/-- What is bound and what remains to be solved has the shape. -/
structure Theory.Problem.Over (P : Shape) (p : Theory.Problem) : Prop where
  subst : p.subst.Over P
  eqs : EquationsHave P p.eqs

theorem Theory.Problem.Over.mono {P Q : Shape} (h : P.Le Q) {p : Theory.Problem} (hp : p.Over P) :
    p.Over Q := ⟨hp.subst.mono h, hp.eqs.mono h⟩

/-- What a deconstruction step needs and gives has the shape. -/
def ExtractionsHave (P : Shape) (es : List Extraction) : Prop :=
  ∀ e ∈ es, EquationsHave P e.eqs ∧ e.output.Has P ∧ ∀ t ∈ e.side, t.Has P

namespace Theory.Closes

variable {T : Theory} {P : Shape}

/-! ## Taking apart and putting together -/

theorem has_bipartitions {as : List Term} (h : ∀ a ∈ as, a.Has P) {join : List Term → Term}
    (hjoin : ∀ ts, ts ≠ [] → (∀ t ∈ ts, t.Has P) → (join ts).Has P) :
    ∀ parts ∈ (bipartitions as).map (fun (ts, us) => [join ts, join us]), ∀ u ∈ parts, u.Has P := by
  intro parts hparts
  obtain ⟨⟨ts, us⟩, hp, rfl⟩ := List.mem_map.1 hparts
  obtain ⟨hts, hus, hts', hus'⟩ := mem_bipartitions hp
  refine List.forall_mem_cons.2 ⟨hjoin ts hts' fun t ht => h t (hts t ht), ?_⟩
  exact List.forall_mem_cons.2 ⟨hjoin us hus' fun t ht => h t (hus t ht), by simp⟩

theorem has_decompose_exponents
    (hP : P.app .exp 2 ∧ P.app .inv 1 ∧ P.app .one 0 ∧ ∀ n, P.app .mult n) {f : Symbol}
    {as : List Term} (h : ∀ a ∈ as, a.Has P) :
    ∀ parts ∈ Exponent.decompose f as, ∀ u ∈ parts, u.Has P := by
  intro parts hparts
  unfold Exponent.decompose at hparts
  split at hparts
  · split at hparts
    · rename_i b e
      rcases List.mem_cons.1 hparts with rfl | hparts
      · exact h
      · split at hparts
        · obtain ⟨i, -, rfl⟩ := List.mem_map.1 hparts
          have hfactors := has_factors (h e (by simp))
          have hkept := has_product hP fun t ht =>
            hfactors t (@mem_splitByMask _ t (i + 1) _ (.inl ht))
          have hsplit := has_product hP fun t ht =>
            hfactors t (@mem_splitByMask _ t (i + 1) _ (.inr ht))
          refine List.forall_mem_cons.2 ⟨has_exp hP (h b (by simp)) hkept, ?_⟩
          exact List.forall_mem_cons.2 ⟨hsplit, by simp⟩
        · cases hparts
    · rw [List.mem_singleton.1 hparts]
      exact h
  · split at hparts
    · exact has_bipartitions h (fun ts _ hts => has_product hP hts) parts hparts
    · split at hparts
      · rw [List.mem_singleton.1 hparts]
        exact h
      · split at hparts
        · rw [List.mem_singleton.1 hparts]
          simp
        · cases hparts

theorem has_decompose (hT : T.Keeps P) {t : Term} (ht : t.Has P) :
    ∀ parts ∈ T.decompose t, ∀ u ∈ parts, u.Has P := by
  unfold Theory.decompose
  split
  · obtain ⟨-, has⟩ := Term.has_app.1 ht
    split
    · exact has_decompose_exponents (hT.exponents (exponents_of_owner? ‹_›)) has
    · unfold ExclusiveOr.decompose
      split
      · simp
      · exact has_bipartitions has fun ts _ hts => has_sum (hT.xor (xor_of_owner? ‹_›)) hts
    · unfold Multiset.decompose
      split
      · exact has_bipartitions has fun ts hne => has_union (hT.multisets (multisets_of_owner? ‹_›)) hne
      · simp
    · split
      · exact List.forall_mem_cons.2 ⟨has, by simp⟩
      · simp
  · simp

theorem have_extract_exponents
    (hP : P.app .exp 2 ∧ P.app .inv 1 ∧ P.app .one 0 ∧ ∀ n, P.app .mult n) {f : Symbol}
    {as : List Term} (h : ∀ a ∈ as, a.Has P) : ExtractionsHave P (Exponent.extract f as) := by
  unfold Exponent.extract
  split
  · rename_i b e
    split
    · intro x hx
      obtain ⟨⟨t, rest⟩, hp, rfl⟩ := List.mem_map.1 hx
      obtain ⟨ht, hrest⟩ := mem_picks hp
      have hfactors := has_factors (h e (by simp))
      refine ⟨.nil, has_exp hP (h b (by simp)) (has_product hP fun u hu => hfactors u (hrest u hu)), ?_⟩
      simpa using hfactors t ht
    · exact List.forall_mem_nil _
  · split
    · exact List.forall_mem_cons.2 ⟨⟨.nil, h _ (by simp), by simp⟩, by simp⟩
    · exact List.forall_mem_nil _
  · exact List.forall_mem_nil _

theorem have_extract_xor (hP : P.app .zero 0 ∧ ∀ n, P.app .xor n) {f : Symbol} {as : List Term}
    (h : ∀ a ∈ as, a.Has P) : ExtractionsHave P (ExclusiveOr.extract f as) := by
  unfold ExclusiveOr.extract
  split
  · intro x hx
    obtain ⟨⟨t, rest⟩, hp, rfl⟩ := List.mem_map.1 hx
    obtain ⟨ht, hrest⟩ := mem_picks hp
    refine ⟨.nil, h t ht, ?_⟩
    simpa using has_sum hP fun u hu => h u (hrest u hu)
  · exact List.forall_mem_nil _

end Theory.Closes

theorem Theory.problem_step_found {T : Theory} (p : Problem) (e : Equation) (rest : List Equation)
    (acc : Theory.Progress) : (p.step T e rest acc).2.found = acc.found := by
  unfold Problem.step
  simp only
  split
  · rfl
  · split <;> rfl

/-- What every step keeps of the problems on the stack holds of the answers. -/
theorem Theory.forall_mem_found {T : Theory} {Q : Problem → Prop} {R : Subst → Prop}
    (hstep : ∀ p e rest acc, Q p → p.eqs = e :: rest → ∀ q ∈ (p.step T e rest acc).1, Q q)
    (hdone : ∀ p, Q p → R p.subst) (n : Nat) {stack : List Problem} {acc : Theory.Progress}
    (hstack : ∀ p ∈ stack, Q p) (hacc : ∀ σ ∈ acc.found, R σ) :
    ∀ σ ∈ (T.solveAll n stack acc).found, R σ := by
  fun_induction Theory.solveAll T n stack acc with
  | case1 | case2 | case3 => exact hacc
  | case4 _ _ _ _ _ _ _ ih => exact ih (List.forall_mem_cons.1 hstack).2 hacc
  | case5 _ p _ _ _ _ _ ih =>
    obtain ⟨hp, hstack⟩ := List.forall_mem_cons.1 hstack
    exact ih hstack (List.forall_mem_append.2 ⟨hacc, List.forall_mem_singleton.2 (hdone p hp)⟩)
  | case6 n p stack acc _ e rest he problems acc' hs ih =>
    obtain ⟨hp, hstack⟩ := List.forall_mem_cons.1 hstack
    have hq := hstep p e rest acc hp he
    have hfound := problem_step_found (T := T) p e rest acc
    rw [hs] at hq hfound
    exact ih (List.forall_mem_append.2 ⟨hq, hstack⟩) (hfound.symm ▸ hacc)

namespace Theory.Supplies

variable {T : Theory} {W : Type} {P : W → Shape} {I : W → VarSupply → Prop} {w : W} {l r : Term}
  (hT : T.Supplies P I)

include hT

theorem draws_narrow (hl : l.Has (P w)) (hr : r.Has (P w)) :
    Draws P I w (Free.narrow T.rules l r) fun w => AlternativesHave (P w) := by
  unfold Free.narrow
  split
  · split
    · exact .pure (List.forall_mem_nil _)
    · refine Draws.mapM (R := fun w (a : Alternative) => EquationsHave (P w) a.eqs)
        (fun h ha => ha.mono h) fun rule hrule w₁ hw₁ => ?_
      refine (hT.renamed rule (List.mem_filter.1 hrule).1 w₁).bind fun w₂ hw₂ p hp => .pure ?_
      exact (EquationsHave.zip (hw₂ _ (hw₁ _ hl)).args hp.1).append
        (.cons hp.2 (hw₂ _ (hw₁ _ hr)) .nil)
  · exact .pure (List.forall_mem_nil _)

theorem draws_solve_free (hl : l.Has (P w)) (hr : r.Has (P w)) :
    Draws P I w (Free.solve T.rules l r) fun w => Solutions.Have (P w) := by
  refine (hT.draws_narrow hl hr).bind fun w₁ hw₁ left hleft =>
    (hT.draws_narrow (hw₁ _ hr) (hw₁ _ hl)).bind fun w₂ hw₂ right hright => .pure ?_
  refine List.forall_mem_append.2 ⟨List.forall_mem_append.2
    ⟨?_, fun a ha => (hleft a ha).mono hw₂⟩, hright⟩
  split
  · split
    · exact List.forall_mem_singleton.2 (.zip (hw₂ _ (hw₁ _ hl)).args (hw₂ _ (hw₁ _ hr)).args)
    · exact List.forall_mem_nil _
  · exact List.forall_mem_nil _

theorem draws_solve (hl : l.Has (P w)) (hr : r.Has (P w)) :
    Draws P I w (T.solve l r) fun w => Solutions.Have (P w) := by
  unfold Theory.solve
  split
  · obtain ⟨f, hf⟩ := exists_owner?_of_solver? ‹_›
    exact .pure (Closes.have_solve_exponents ((hT.keeps w).exponents (exponents_of_owner? hf)) hl hr).have
  · obtain ⟨f, hf⟩ := exists_owner?_of_solver? ‹_›
    exact .pure (Closes.have_solve_xor ((hT.keeps w).xor (xor_of_owner? hf)) hl hr).have
  · obtain ⟨f, hf⟩ := exists_owner?_of_solver? ‹_›
    intro s hs
    obtain ⟨w', hw, hs, h⟩ := Closes.draws_solve_multisets
      (fun w => (hT.keeps w).multisets (multisets_of_owner? hf)) (hT.fresh _ _) hl hr s hs
    exact ⟨w', hw, hs, h.have⟩
  · exact hT.draws_solve_free hl hr

/-- A step of unification leads to a later stage. -/
theorem step {p : Problem} {e : Equation} {rest : List Equation} (acc : Theory.Progress)
    (hs : I w acc.supply) (hp : p.Over (P w)) (he : p.eqs = e :: rest) : ∃ w', (P w).Le (P w') ∧
      I w' (p.step T e rest acc).2.supply ∧ ∀ q ∈ (p.step T e rest acc).1, q.Over (P w') := by
  obtain ⟨hsubst, heqs⟩ := hp
  obtain ⟨⟨he₁, he₂⟩, hrest⟩ := List.forall_mem_cons.1 (he ▸ heqs)
  have hrest : EquationsHave (P w) rest := hrest
  have hl := (hT.keeps w).has_normalize (hsubst.apply he₁)
  have hr := (hT.keeps w).has_normalize (hsubst.apply he₂)
  unfold Problem.step
  simp only
  split
  · exact ⟨w, fun _ => id, hs, List.forall_mem_singleton.2 ⟨hsubst, hrest⟩⟩
  · split
    · rename_i x t ho
      obtain ⟨ho, hsort⟩ := orient_eq_some ho
      refine ⟨w, fun _ => id, hs, List.forall_mem_singleton.2 ⟨?_, hrest⟩⟩
      have hbind := fun hx ht => hsubst.bind (fun _ => (hT.keeps w).has_normalize) hx ht hsort
      rcases ho with ⟨hx, ht⟩ | ⟨hx, ht⟩
      · exact hbind (Term.has_var.1 (hx ▸ hl)) (ht ▸ hr)
      · exact hbind (Term.has_var.1 (hx ▸ hr)) (ht ▸ hl)
    · obtain ⟨w', hw, hs, hsolutions⟩ := hT.draws_solve hl hr _ hs
      refine ⟨w', hw, hs, List.forall_mem_map.2 fun a ha => ⟨hsubst.mono hw, ?_⟩⟩
      exact (hsolutions a (List.mem_filter.1 ha).1).append (hrest.mono hw)

theorem solveAll (n : Nat) (stack : List Problem) (acc : Theory.Progress) (hs : I w acc.supply)
    (hstack : ∀ p ∈ stack, p.Over (P w)) (hacc : ∀ σ ∈ acc.found, σ.Over (P w)) :
    ∃ w', (P w).Le (P w') ∧ I w' (T.solveAll n stack acc).supply ∧
      ∀ σ ∈ (T.solveAll n stack acc).found, σ.Over (P w') := by
  fun_induction Theory.solveAll T n stack acc generalizing w with
  | case1 | case2 | case3 => exact ⟨w, fun _ => id, hs, hacc⟩
  | case4 _ _ _ _ _ _ _ ih => exact ih hs (List.forall_mem_cons.1 hstack).2 hacc
  | case5 _ _ _ _ _ _ _ ih =>
    obtain ⟨hp, hstack⟩ := List.forall_mem_cons.1 hstack
    exact ih hs hstack (List.forall_mem_append.2 ⟨hacc, List.forall_mem_singleton.2 hp.subst⟩)
  | case6 n p stack acc _ e rest he problems acc' hstep ih =>
    obtain ⟨hp, hstack⟩ := List.forall_mem_cons.1 hstack
    obtain ⟨w₁, hw₁, hs, hq⟩ := hT.step acc hs hp he
    have hfound := problem_step_found (T := T) p e rest acc
    rw [hstep] at hs hq hfound
    obtain ⟨w₂, hw₂, h⟩ := ih hs
      (List.forall_mem_append.2 ⟨hq, fun q hq => (hstack q hq).mono hw₁⟩)
      (hfound.symm ▸ fun σ hσ => (hacc σ hσ).mono hw₁)
    exact ⟨w₂, fun t ht => hw₂ t (hw₁ t ht), h⟩

/-- Unifiers of equations between terms of a shape have values of the shape of a later stage. -/
theorem draws_unify {eqs : List Equation} (h : EquationsHave (P w) eqs) :
    Draws P I w (T.unify eqs ∅) fun w u => ∀ σ ∈ u.substs, σ.Over (P w) := by
  intro s hs
  obtain ⟨w', hw, hs, hfound⟩ := hT.solveAll maxWork [⟨∅, eqs, 0⟩] ⟨[], true, s⟩ hs
    (List.forall_mem_singleton.2 ⟨.empty, h⟩) (List.forall_mem_nil _)
  exact ⟨w', hw, hs, fun σ hσ => hfound σ (List.mem_filter.1 hσ).1⟩

theorem draws_extract_free {t : Term} (ht : t.Has (P w)) :
    Draws P I w (Free.extract T.signature T.rules t) fun w => ExtractionsHave (P w) := by
  have hmono : ∀ {w w' : W} {es : List Extraction}, (P w).Le (P w') → ExtractionsHave (P w) es →
      ExtractionsHave (P w') es := fun h hes e he => ⟨(hes e he).1.mono h,
    h _ (hes e he).2.1, fun u hu => h u ((hes e he).2.2 u hu)⟩
  have hgetD : ∀ {w : W} (i : Nat) {as : List Term}, t.Has (P w) →
      (∀ a ∈ as, a.Has (P w)) → (as.getD i t).Has (P w) := by
    intro w i as ht has
    rw [List.getD_eq_getElem?_getD]
    cases hi : as[i]? with
    | none => exact ht
    | some u => exact has u (List.mem_of_getElem? hi)
  unfold Free.extract
  refine (Draws.mapM (R := fun w => ExtractionsHave (P w)) hmono fun rule hrule w₁ hw₁ => ?_).bind
    fun w₁ hw₁ steps h => .pure fun x hx => ?_
  · split
    · split
      · refine (hT.renamed rule hrule w₁).bind fun w₂ hw₂ p hp => .pure (List.forall_mem_singleton.2 ?_)
        have ht := hw₂ t (hw₁ t ht)
        exact ⟨.cons ht (hgetD _ ht hp.1) .nil, hp.2, fun u hu => hp.1 u (List.mem_of_mem_eraseIdx hu)⟩
      · exact .pure (List.forall_mem_nil _)
    · exact .pure (List.forall_mem_nil _)
  · obtain ⟨es, hes, hx⟩ := List.mem_flatten.1 hx
    exact h es hes x hx

theorem draws_extract {t : Term} (ht : t.Has (P w)) :
    Draws P I w (T.extract t) fun w => ExtractionsHave (P w) := by
  unfold Theory.extract
  split
  · obtain ⟨-, has⟩ := Term.has_app.1 ht
    split
    · exact .pure (Closes.have_extract_exponents ((hT.keeps w).exponents (exponents_of_owner? ‹_›)) has)
    · exact .pure (Closes.have_extract_xor ((hT.keeps w).xor (xor_of_owner? ‹_›)) has)
    · exact .pure (List.forall_mem_nil _)
    · exact hT.draws_extract_free ht
  · exact .pure (List.forall_mem_nil _)

end Theory.Supplies

namespace Theory.Closes

variable {T : Theory} {P : Shape} (hT : T.Closes P)

include hT

theorem yields_renamed {rule : Reduction} (hrule : rule ∈ T.rules) :
    Yields rule.renamed fun p => (∀ a ∈ p.1.args, a.Has P) ∧ p.2.Has P := by
  obtain ⟨hargs, hrhs⟩ := hT.rules rule hrule
  refine (yields_renameApart hT.var _).bind fun ρ hρ => .pure ⟨?_, hρ.has_apply hT.var hrhs⟩
  cases hl : rule.lhs with
  | var v =>
    -- The values of a renaming are variables.
    exact (hρ.value hT.var v).args
  | name n => exact List.forall_mem_nil _
  | app f as =>
    rw [hl] at hargs
    intro a ha
    simp only [Subst.apply, Term.mapVars_app] at ha
    obtain ⟨b, hb, rfl⟩ := List.mem_map.1 ha
    exact hρ.has_apply hT.var (hargs b hb)

/-- Any variable has the shape, so all terms are of one stage. -/
theorem supplies : T.Supplies (fun _ : Unit => P) fun _ _ => True where
  keeps _ := hT.keeps
  fresh _ _ _ _ _ := ⟨(), fun _ => id, trivial, hT.var _⟩
  renamed _ hrule _ s _ := ⟨(), fun _ => id, trivial, hT.yields_renamed hrule s⟩

theorem problem_step {p : Problem} {e : Equation} {rest : List Equation} (acc : Theory.Progress)
    (hp : p.subst.Within P) (heqs : EquationsHave P p.eqs) (he : p.eqs = e :: rest) :
    ∀ q ∈ (p.step T e rest acc).1, q.subst.Within P ∧ EquationsHave P q.eqs := by
  obtain ⟨-, -, -, h⟩ := hT.supplies.step (w := ()) acc trivial
    ⟨fun x t ht => ⟨hT.var x, hp x t ht⟩, heqs⟩ he
  exact fun q hq => ⟨(h q hq).subst.within, (h q hq).eqs⟩

theorem within_unify {eqs : List Equation} (h : EquationsHave P eqs) {s : VarSupply} {σ : Subst}
    (hσ : σ ∈ ((T.unify eqs ∅).run s).1.substs) : σ.Within P := by
  obtain ⟨-, -, -, hover⟩ := hT.supplies.draws_unify (w := ()) h s trivial
  exact (hover σ hσ).within

theorem have_extract {t : Term} (ht : t.Has P) (s : VarSupply) :
    ExtractionsHave P ((T.extract t).run s).1 := by
  obtain ⟨-, -, -, h⟩ := hT.supplies.draws_extract (w := ()) ht s trivial
  exact h

end Theory.Closes

end ProtocolProver
