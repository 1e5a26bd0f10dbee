import ProtocolProver.Proofs.Matching
import ProtocolProver.Proofs.TermAlgebra

/-!
# Standard theories

In a standard theory every rule takes a constructor apart: the left side is a destructor applied to
constructor patterns, and the right side is one of its variables or a constant. No two rules are for
the same destructor, so a rule applies to every instance of its left side (`Standard.reduce_rule`) and
what no rule applies to stays as it is. The theories of all packs are standard.
-/

namespace ProtocolProver

namespace Theory

/-- A free symbol that no rule is for. -/
structure IsConstructor (T : Theory) (f : Symbol) : Prop where
  free : T.algebras.owner? f = none
  noRule : ∀ r ∈ T.rules, r.lhs.head? ≠ some f

/-- Patterns: message variables and constructors. -/
def patternShape (T : Theory) : Shape :=
  ⟨fun v => v.sort = .msg, fun _ => False,
    fun f n => T.IsConstructor f ∧ n = T.signature.arity f⟩

/-- A rule that takes constructors apart. -/
structure StandardRule (T : Theory) (r : Reduction) : Prop where
  lhs : ∃ f ps, r.lhs = .app f ps ∧ T.algebras.owner? f = none ∧
    ps.length = T.signature.arity f ∧ ∀ p ∈ ps, p.Has T.patternShape
  rhs : (∃ v ∈ r.lhs.occurrences, r.rhs = .var v) ∨
    ∃ c, r.rhs = .const c ∧ T.IsConstructor c ∧ T.signature.arity c = 0

/-- A theory with the built-in symbols and standard rules, one for each destructor. -/
structure Standard (T : Theory) : Prop where
  builtin : ∀ f : Symbol, f.index < Signature.builtin.size →
    T.signature.get? f = Signature.builtin.get? f
  rule : ∀ r ∈ T.rules, T.StandardRule r
  unique : ∀ r ∈ T.rules, ∀ s ∈ T.rules, r.lhs.head? = s.lhs.head? → r.lhs = s.lhs ∧ r.rhs = s.rhs

/-! ## Contraction at the root -/

theorem contractRoot?_eq_none {rules : List Reduction} {f : Symbol} {as : List Term}
    (h : contractRoot? rules (.app f as) = none) {r : Reduction} (hr : r ∈ rules)
    {θ : Var → Term} (hs : ∀ v ∈ r.lhs.occurrences, v.sort.admits (θ v).sort = true)
    (hl : ¬r.lhs.isVar = true) : r.lhs.mapVars θ ≠ .app f as := by
  intro he
  have hhead : r.lhs.head? = some f := by
    cases hlhs : r.lhs with
    | var v => rw [hlhs] at hl; exact absurd rfl hl
    | name n => rw [hlhs] at he; cases he
    | app g ps =>
      rw [hlhs, Term.mapVars_app, Term.app.injEq] at he
      exact congrArg some he.1
  obtain ⟨τ, hτ, -⟩ := matchTerm_complete (σ := ∅) (fun v hv _ => hs v hv) fun v t ht => by
    rw [SortedMap.get?_empty] at ht
    cases ht
  rw [he] at hτ
  have hnone := List.findSome?_eq_none_iff.1 h r (List.mem_filter.2 ⟨hr, by simp [hhead]⟩)
  rw [Reduction.contract?, hτ] at hnone
  cases hnone

variable {T : Theory}

theorem IsConstructor.contractRoot? {f : Symbol} (h : T.IsConstructor f) (as : List Term) :
    contractRoot? T.rules (.app f as) = none := by
  have hempty : rulesFor T.rules f = [] := by
    refine List.filter_eq_nil_iff.2 fun r hr => ?_
    simpa using h.noRule r hr
  simp [ProtocolProver.contractRoot?, Term.head?, hempty]

theorem IsConstructor.reduce {f : Symbol} (h : T.IsConstructor f) (as : List Term) :
    ∀ n, T.reduce n f as = .app f as
  | 0 => by rw [Theory.reduce, h.free]
  | n + 1 => by rw [Theory.reduce, h.free, h.contractRoot?]

theorem eval_pattern {p : Term} (hp : p.Has T.patternShape) (ρ : Var → Term) (n : Nat) :
    p.eval ρ (T.reduce n) = p.mapVars ρ := by
  induction hp with
  | var => rfl
  | name h => exact h.elim
  | app h _ ih => rw [Term.eval_app, Term.mapVars_app, h.1.reduce, List.map_congr_left ih]

namespace Standard

variable (hT : T.Standard) {f : Symbol} {as : List Term}

include hT

theorem not_isVar {r : Reduction} (hr : r ∈ T.rules) : ¬r.lhs.isVar = true := by
  obtain ⟨f, ps, hl, -⟩ := (hT.rule r hr).lhs
  rw [hl]
  exact Bool.false_ne_true

theorem sort_of_mem_occurrences {r : Reduction} (hr : r ∈ T.rules) {v : Var}
    (hv : v ∈ r.lhs.occurrences) : v.sort = .msg := by
  obtain ⟨f, ps, hl, -, -, hps⟩ := (hT.rule r hr).lhs
  rw [hl] at hv
  obtain ⟨p, hp, hv⟩ := Term.mem_occurrences_app.1 hv
  have key : ∀ {p : Term}, p.Has T.patternShape → ∀ v ∈ p.occurrences, v.sort = .msg := by
    intro p hp
    induction hp with
    | var h =>
      intro v hv
      rw [Term.occurrences, List.mem_singleton] at hv
      exact hv ▸ h
    | name h => exact h.elim
    | app _ _ ih =>
      intro v hv
      obtain ⟨a, ha, hv⟩ := Term.mem_occurrences_app.1 hv
      exact ih a ha v hv
  exact key (hps p hp) v hv

theorem eval_rhs {r : Reduction} (hr : r ∈ T.rules) (ρ : Var → Term) (n : Nat) :
    r.rhs.eval ρ (T.reduce n) = r.rhs.mapVars ρ := by
  rcases (hT.rule r hr).rhs with ⟨v, -, h⟩ | ⟨c, h, hc, -⟩
  · rw [h]
    rfl
  · rw [h, Term.const, Term.eval_app, hc.reduce]
    rfl

/-- A free symbol is reduced by a rule, or stays where no left side matches. -/
theorem reduce_cases (hf : T.algebras.owner? f = none) (as : List Term) (n : Nat) :
    (∃ r ∈ T.rules, ∃ θ, r.lhs.mapVars θ = .app f as ∧
      T.reduce (n + 1) f as = r.rhs.mapVars θ) ∨
    contractRoot? T.rules (.app f as) = none ∧ T.reduce (n + 1) f as = .app f as := by
  cases hc : contractRoot? T.rules (.app f as) with
  | none =>
    refine .inr ⟨rfl, ?_⟩
    rw [Theory.reduce, hf, hc]
  | some c =>
    obtain ⟨rhs, σ⟩ := c
    obtain ⟨r, hr, rfl, hm⟩ := contractRoot?_eq_some hc
    refine .inl ⟨r, hr, σ.value, (matchTerm_sound hm).2.2, ?_⟩
    rw [Theory.reduce, hf, hc]
    exact hT.eval_rhs hr σ.value n

/-- A rule applies to every instance of its left side. -/
theorem reduce_rule {r : Reduction} (hr : r ∈ T.rules) {θ : Var → Term}
    (h : r.lhs.mapVars θ = .app f as) (n : Nat) : T.reduce (n + 1) f as = r.rhs.mapVars θ := by
  obtain ⟨g, ps, hl, hg, -, -⟩ := (hT.rule r hr).lhs
  have hgf : g = f := by
    rw [hl, Term.mapVars_app, Term.app.injEq] at h
    exact h.1
  rw [hgf] at hg
  rcases hT.reduce_cases hg as n with ⟨s, hs, τ, hm, he⟩ | ⟨hc, -⟩
  · -- the rule that was found has the same destructor, so it is this one
    have hhead : ∀ {q : Reduction} {τ : Var → Term}, q ∈ T.rules → q.lhs.mapVars τ = .app f as →
        q.lhs.head? = some f := by
      intro q τ hq hm
      obtain ⟨k, qs, hl, -⟩ := (hT.rule q hq).lhs
      rw [hl, Term.mapVars_app, Term.app.injEq] at hm
      rw [hl, hm.1]
      rfl
    obtain ⟨hlhs, hrhs⟩ := hT.unique s hs r hr ((hhead hs hm).trans (hhead hr h).symm)
    rw [he, hrhs]
    rw [hlhs, ← h] at hm
    refine Term.mapVars_congr fun v hv => Term.eq_of_mapVars_eq hm v ?_
    rcases (hT.rule r hr).rhs with ⟨w, hw, hr⟩ | ⟨c, hr, -⟩
    · rw [hr, Term.occurrences, List.mem_singleton] at hv
      exact hv ▸ hw
    · rw [hr] at hv
      simp [Term.const, Term.occurrences, Term.occurrencesList] at hv
  · refine absurd h (contractRoot?_eq_none hc hr (fun v hv => ?_) (hT.not_isVar hr))
    rw [hT.sort_of_mem_occurrences hr hv]
    rfl

end Standard

end Theory

end ProtocolProver
