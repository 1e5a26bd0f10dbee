import ProtocolProver.Term.Subst

/-!
# Shapes of terms

A shape says which variables, names and applications a term may have. What terms have one shape in
common is closed under substitution and evaluation (`Has.mapVars`, `Has.eval`), so that "respects the
arities", "holds no fresh value" or "mentions no destructor" are kept by everything that only puts
terms together.
-/

namespace ProtocolProver

/-- What may occur in a term. An application is judged by its symbol and the number of arguments. -/
structure Shape where
  var : Var → Prop
  name : Name → Prop
  app : Symbol → Nat → Prop

namespace Term

/-- Everything in the term is allowed by the shape. -/
inductive Has (P : Shape) : Term → Prop
  | var {v : Var} : P.var v → Has P (.var v)
  | name {n : Name} : P.name n → Has P (.name n)
  | app {f : Symbol} {as : List Term} : P.app f as.length → (∀ a ∈ as, Has P a) → Has P (.app f as)

/-- Induction on terms, with the hypothesis for every argument. -/
@[elab_as_elim]
theorem induction_args {motive : Term → Prop} (var : ∀ v, motive (.var v))
    (name : ∀ n, motive (.name n)) (app : ∀ f as, (∀ a ∈ as, motive a) → motive (.app f as))
    (t : Term) : motive t :=
  @Term.rec motive (fun as => ∀ a ∈ as, motive a) var name app (List.forall_mem_nil _)
    (fun _ _ ha has => List.forall_mem_cons.2 ⟨ha, has⟩) t

variable {P Q : Shape}

@[simp] theorem has_var {v : Var} : (Term.var v).Has P ↔ P.var v :=
  ⟨fun h => by cases h; assumption, .var⟩

@[simp] theorem has_name {n : Name} : (Term.name n).Has P ↔ P.name n :=
  ⟨fun h => by cases h; assumption, .name⟩

@[simp] theorem has_app {f : Symbol} {as : List Term} :
    (Term.app f as).Has P ↔ P.app f as.length ∧ ∀ a ∈ as, a.Has P :=
  ⟨fun h => by cases h; exact ⟨by assumption, by assumption⟩, fun h => .app h.1 h.2⟩

section Decidable

variable [∀ v, Decidable (P.var v)] [∀ n, Decidable (P.name n)] [∀ f n, Decidable (P.app f n)]

mutual

def decidableHas : (t : Term) → Decidable (t.Has P)
  | .var _ => decidable_of_iff _ has_var.symm
  | .name _ => decidable_of_iff _ has_name.symm
  | .app _ as =>
    have := decidableHasList as
    decidable_of_iff _ has_app.symm

def decidableHasList : (as : List Term) → Decidable (∀ a ∈ as, a.Has P)
  | [] => isTrue (List.forall_mem_nil _)
  | a :: as =>
    have := decidableHas a
    have := decidableHasList as
    decidable_of_iff _ List.forall_mem_cons.symm

end

instance : DecidablePred (Has P) := decidableHas

end Decidable

theorem Has.mono {t : Term} (h : t.Has P) (hv : ∀ v, P.var v → Q.var v)
    (hn : ∀ n, P.name n → Q.name n) (hf : ∀ f n, P.app f n → Q.app f n) : t.Has Q := by
  induction h with
  | var h => exact .var (hv _ h)
  | name h => exact .name (hn _ h)
  | app h _ ih => exact .app (hf _ _ h) ih

@[simp] theorem mapVars_app (σ : Var → Term) (f : Symbol) (as : List Term) :
    (Term.app f as).mapVars σ = .app f (as.map (mapVars σ)) := by
  rw [mapVars, mapVarsList_eq]

@[simp] theorem eval_app (ρ : Var → Term) (op : Symbol → List Term → Term) (f : Symbol)
    (as : List Term) : (Term.app f as).eval ρ op = op f (as.map (Term.eval ρ op)) := by
  rw [Term.eval, Term.evalList_eq]

theorem mapVars_var (t : Term) : t.mapVars .var = t := by
  induction t using induction_args with
  | var v => rfl
  | name n => rfl
  | app f as ih => rw [mapVars_app, List.map_congr_left ih, List.map_id'']; exact fun _ => rfl

theorem mem_occurrences_app {v : Var} {f : Symbol} {as : List Term} :
    v ∈ (Term.app f as).occurrences ↔ ∃ a ∈ as, v ∈ a.occurrences := by
  rw [occurrences, occurrencesList_eq, List.mem_flatMap]

theorem Has.var_of_mem {t : Term} (h : t.Has P) {v : Var} (hv : v ∈ t.occurrences) : P.var v := by
  induction h with
  | var h => rw [List.mem_singleton.1 hv]; exact h
  | name => cases hv
  | app _ _ ih =>
    obtain ⟨a, ha, hv⟩ := mem_occurrences_app.1 hv
    exact ih a ha hv

/-- A term keeps its names and symbols when values of a shape are put in for its variables. -/
theorem Has.mapVars {t : Term} (h : t.Has P) {σ : Var → Term}
    (hσ : ∀ v ∈ t.occurrences, (σ v).Has Q) (hn : ∀ n, P.name n → Q.name n)
    (hf : ∀ f n, P.app f n → Q.app f n) : (t.mapVars σ).Has Q := by
  induction h with
  | var => exact hσ _ (by simp [occurrences])
  | name h => exact .name (hn _ h)
  | @app f as h _ ih =>
    rw [mapVars_app]
    refine .app (by rw [List.length_map]; exact hf _ _ h) ?_
    intro b hb
    obtain ⟨a, ha, rfl⟩ := List.mem_map.1 hb
    exact ih a ha fun v hv => hσ v (mem_occurrences_app.2 ⟨a, ha, hv⟩)

theorem Has.eval {t : Term} (h : t.Has P) {ρ : Var → Term} {op : Symbol → List Term → Term}
    (hρ : ∀ v ∈ t.occurrences, (ρ v).Has Q) (hn : ∀ n, P.name n → Q.name n)
    (hop : ∀ f as, P.app f as.length → (∀ a ∈ as, a.Has Q) → (op f as).Has Q) :
    (t.eval ρ op).Has Q := by
  induction h with
  | var => exact hρ _ (by simp [occurrences])
  | name h => exact .name (hn _ h)
  | @app f as h _ ih =>
    rw [eval_app]
    refine hop f _ (by rw [List.length_map]; exact h) ?_
    intro b hb
    obtain ⟨a, ha, rfl⟩ := List.mem_map.1 hb
    exact ih a ha fun v hv => hρ v (mem_occurrences_app.2 ⟨a, ha, hv⟩)

theorem eval_mapVars (t : Term) (σ ρ : Var → Term) (op : Symbol → List Term → Term) :
    (t.mapVars σ).eval ρ op = t.eval (fun v => (σ v).eval ρ op) op := by
  induction t using induction_args with
  | var v => rfl
  | name n => rfl
  | app f as ih =>
    rw [mapVars_app, eval_app, eval_app, List.map_map]
    exact congrArg (op f) (List.map_congr_left ih)

theorem eval_congr {t : Term} {ρ ρ' : Var → Term} {op : Symbol → List Term → Term}
    (h : ∀ v ∈ t.occurrences, ρ v = ρ' v) : t.eval ρ op = t.eval ρ' op := by
  induction t using induction_args with
  | var v => exact h v (by simp [occurrences])
  | name n => rfl
  | app f as ih =>
    rw [eval_app, eval_app]
    refine congrArg (op f) (List.map_congr_left fun a ha => ih a ha fun v hv => ?_)
    exact h v (mem_occurrences_app.2 ⟨a, ha, hv⟩)

end Term

end ProtocolProver
