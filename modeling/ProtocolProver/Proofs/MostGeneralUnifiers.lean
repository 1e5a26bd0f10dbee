import ProtocolProver.Proofs.Unifiers

/-!
# Most general unifiers

Unification by structure goes through equations one after the other. When the turn of an equation comes,
the bindings found so far are put in, and it is dropped, read as a binding, taken apart, or it cannot be
solved (`UnifiesTo`). Whatever is found is idempotent and respects sorts (`UnifiesTo.proper`), and the
rounds neither lose a solution nor let one in (`UnifiesTo.solutions`). A binding takes a variable out of
the equations, and to take an equation apart makes them smaller, so that the rounds come to an end within
the bounds of `mostGeneralUnifier` (`unifiesTo_mostGeneralUnifier`).
-/

namespace ProtocolProver

/-! ## Bindings -/

namespace Subst

variable {σ : Subst} {x : Var} {t : Term} {θ : Var → Term}

/-- The variable is not bound, and the term has its sort, does not hold it and holds no variable that is
bound. -/
structure CanBind (σ : Subst) (x : Var) (t : Term) : Prop where
  unbound : σ.get? x = none
  free : ∀ y ∈ t.occurrences, y ≠ x ∧ σ.get? y = none
  sort : x.sort.admits t.sort = true

namespace CanBind

theorem idempotent (h : σ.CanBind x t) (hσ : σ.Idempotent) : (σ.bind id x t).Idempotent :=
  hσ.bind (fun _ _ hy => hy) h.free

theorem value_bind (h : σ.CanBind x t) (y : Var) :
    (σ.bind id x t).value y = (single x t).apply (σ.value y) := by
  have hvalue : (σ.bind id x t).value y = (single x (σ.apply t)).apply (σ.value y) :=
    @normalize_value_bind σ x t id (fun _ _ _ => rfl) h.unbound y
  rwa [apply_of_unbound fun y hy => (h.free y hy).2] at hvalue

theorem apply_bind (h : σ.CanBind x t) (u : Term) :
    (σ.bind id x t).apply u = (single x t).apply (σ.apply u) := by
  rw [apply, apply, apply, Term.mapVars_mapVars]
  exact Term.mapVars_congr fun y _ => h.value_bind y

theorem map_applyEquation_bind (h : σ.CanBind x t) (eqs : List Equation) :
    (eqs.map σ.applyEquation).map (single x t).applyEquation =
      eqs.map (σ.bind id x t).applyEquation := by
  rw [List.map_map]
  refine List.map_congr_left fun e _ => ?_
  rw [applyEquation, h.apply_bind, h.apply_bind]
  rfl

theorem respectsSorts (h : σ.CanBind x t) (hσ : RespectsSorts σ.value) :
    RespectsSorts (σ.bind id x t).value := by
  have hsingle : RespectsSorts (single x t).value := by
    intro y
    by_cases hy : y = x
    · rw [hy, value_single_self]
      exact h.sort
    · rw [value_single_of_ne hy]
      exact TermSort.admits_self _
  intro y
  rw [h.value_bind]
  exact Term.admits_mapVars hsingle (hσ y)

/-- A solution takes in a new binding exactly if it takes in the older ones and the binding is true. -/
theorem absorbed_iff (h : σ.CanBind x t) :
    (σ.bind id x t).Absorbed θ ↔ σ.Absorbed θ ∧ θ x = t.mapVars θ := by
  constructor
  · intro hθ
    have hx : θ x = t.mapVars θ := by
      have hx := hθ x
      rw [h.value_bind, value_of_get?_eq_none h.unbound] at hx
      change ((single x t).value x).mapVars θ = θ x at hx
      rw [value_single_self] at hx
      exact hx.symm
    refine ⟨fun y => ?_, hx⟩
    rw [← hθ y, h.value_bind, (absorbed_single hx).apply]
  · rintro ⟨hθ, hx⟩ y
    rw [h.value_bind, (absorbed_single hx).apply, hθ y]

end CanBind

theorem Idempotent.empty : (∅ : Subst).Idempotent := by
  intro x t h
  cases h

theorem Idempotent.absorbed (h : σ.Idempotent) : σ.Absorbed σ.value :=
  fun y => apply_of_unbound (h.apply (t := .var y))

theorem Idempotent.canBind (h : σ.Idempotent) {l r : Term} (hne : σ.apply l ≠ σ.apply r)
    (ho : orient (σ.apply l) (σ.apply r) = some (x, t)) : σ.CanBind x t := by
  have hxt : x ∉ t.occurrences := not_mem_of_orient ho hne
  obtain ⟨ho, hs⟩ := orient_eq_some ho
  have hside : σ.get? x = none ∧ ∀ y ∈ t.occurrences, σ.get? y = none := by
    have hl := h.apply (t := l)
    have hr := h.apply (t := r)
    rcases ho with ⟨hx, rfl⟩ | ⟨hx, rfl⟩
    · rw [hx] at hl
      exact ⟨hl x (List.mem_singleton.2 rfl), hr⟩
    · rw [hx] at hr
      exact ⟨hr x (List.mem_singleton.2 rfl), hl⟩
  refine ⟨hside.1, fun y hy => ⟨?_, hside.2 y hy⟩, hs⟩
  rintro rfl
  exact hxt hy

end Subst

theorem mapVars_eq_iff_of_orient {l r t : Term} {x : Var} (h : orient l r = some (x, t))
    (θ : Var → Term) : l.mapVars θ = r.mapVars θ ↔ θ x = t.mapVars θ := by
  obtain ⟨⟨rfl, rfl⟩ | ⟨rfl, rfl⟩, -⟩ := orient_eq_some h
  · rfl
  · exact eq_comm

theorem mem_occurrences_of_orient {l r t : Term} {x : Var} (h : orient l r = some (x, t)) :
    ∀ y ∈ (Term.var x).occurrences ++ t.occurrences, y ∈ l.occurrences ++ r.occurrences := by
  intro y hy
  obtain ⟨⟨rfl, rfl⟩ | ⟨rfl, rfl⟩, -⟩ := orient_eq_some h
  · exact hy
  · exact List.mem_append.2 (List.mem_append.1 hy).symm

theorem Subst.Absorbed.solves_cons {σ : Subst} {θ : Var → Term} (h : σ.Absorbed θ) {l r : Term}
    {rest : List Equation} : Solves θ ((l, r) :: rest) ↔
      (σ.apply l).mapVars θ = (σ.apply r).mapVars θ ∧ Solves θ rest := by
  rw [h.apply, h.apply]
  exact List.forall_mem_cons

theorem solves_parts {θ : Var → Term} {f : Symbol} {rest : List Equation} {as bs : List Term}
    (h : as.length = bs.length) : Solves θ ((as.zip bs).reverse ++ rest) ↔
      (Term.app f as).mapVars θ = (Term.app f bs).mapVars θ ∧ Solves θ rest := by
  rw [Term.mapVars_app, Term.mapVars_app, Term.app.injEq, and_iff_right rfl, ← solves_zip_iff h]
  simp only [Solves, List.forall_mem_append, List.mem_reverse]

/-! ## Rounds -/

/-- Unification by structure of the equations that remain, with what is bound already and what it ends
with, if there is no bound on its rounds. -/
inductive UnifiesTo : List Equation → Subst → Option Subst → Prop
  | done {σ : Subst} : UnifiesTo [] σ (some σ)
  | drop {σ : Subst} {l r : Term} {rest : List Equation} {result : Option Subst}
      (same : σ.apply l = σ.apply r) (go : UnifiesTo rest σ result) :
      UnifiesTo ((l, r) :: rest) σ result
  | bind {σ : Subst} {l r : Term} {rest : List Equation} {result : Option Subst} {x : Var} {t : Term}
      (differ : σ.apply l ≠ σ.apply r) (oriented : orient (σ.apply l) (σ.apply r) = some (x, t))
      (go : UnifiesTo rest (σ.bind id x t) result) : UnifiesTo ((l, r) :: rest) σ result
  | parts {σ : Subst} {l r : Term} {rest : List Equation} {result : Option Subst} {f : Symbol}
      {as bs : List Term} (differ : σ.apply l ≠ σ.apply r) (left : σ.apply l = .app f as)
      (right : σ.apply r = .app f bs) (length : as.length = bs.length)
      (go : UnifiesTo ((as.zip bs).reverse ++ rest) σ result) : UnifiesTo ((l, r) :: rest) σ result
  | clash {σ : Subst} {l r : Term} {rest : List Equation} (differ : σ.apply l ≠ σ.apply r)
      (oriented : orient (σ.apply l) (σ.apply r) = none)
      (apart : ∀ f as bs, σ.apply l = .app f as → σ.apply r = .app f bs → as.length ≠ bs.length) :
      UnifiesTo ((l, r) :: rest) σ none

namespace UnifiesTo

variable {eqs : List Equation} {σ : Subst} {result : Option Subst}

theorem unique {result' : Option Subst} (h : UnifiesTo eqs σ result) (h' : UnifiesTo eqs σ result') :
    result = result' := by
  induction h with
  | done =>
    cases h'
    rfl
  | drop same _ ih =>
    cases h' with
    | drop _ go => exact ih go
    | bind differ | parts differ | clash differ => exact absurd same differ
  | bind differ oriented _ ih =>
    cases h' with
    | drop same => exact absurd same differ
    | bind _ oriented' go =>
      cases oriented.symm.trans oriented'
      exact ih go
    | parts _ left right =>
      rw [left, right] at oriented
      cases oriented
    | clash _ oriented' => cases oriented.symm.trans oriented'
  | parts differ left right length _ ih =>
    cases h' with
    | drop same => exact absurd same differ
    | bind _ oriented =>
      rw [left, right] at oriented
      cases oriented
    | parts _ left' right' _ go =>
      cases left.symm.trans left'
      cases right.symm.trans right'
      exact ih go
    | clash _ _ apart => exact absurd length (apart _ _ _ left right)
  | clash differ oriented apart =>
    cases h' with
    | drop same => exact absurd same differ
    | bind _ oriented' => cases oriented.symm.trans oriented'
    | parts _ left right length => exact absurd length (apart _ _ _ left right)
    | clash => rfl

theorem proper (h : UnifiesTo eqs σ result) (hσ : σ.Idempotent) (hs : RespectsSorts σ.value) :
    ∀ τ ∈ result, τ.Idempotent ∧ RespectsSorts τ.value := by
  induction h with
  | done =>
    intro τ hτ
    cases hτ
    exact ⟨hσ, hs⟩
  | drop _ _ ih => exact ih hσ hs
  | bind differ oriented _ ih =>
    have hbind := hσ.canBind differ oriented
    exact ih (hbind.idempotent hσ) (hbind.respectsSorts hs)
  | parts _ _ _ _ _ ih => exact ih hσ hs
  | clash => exact nofun

/-- The solutions that take in what is bound are those that take in what is found. -/
theorem solutions (h : UnifiesTo eqs σ result) (hσ : σ.Idempotent) {θ : Var → Term}
    (hθ : RespectsSorts θ) :
    σ.Absorbed θ ∧ Solves θ eqs ↔ ∃ τ ∈ result, τ.Absorbed θ := by
  induction h with
  | done => simp [Solves]
  | drop same _ ih =>
    rw [← ih hσ]
    refine and_congr_right fun habsorbed => ?_
    rw [habsorbed.solves_cons, same, and_iff_right rfl]
  | bind differ oriented _ ih =>
    have hbind := hσ.canBind differ oriented
    rw [← ih (hbind.idempotent hσ), hbind.absorbed_iff, and_assoc]
    refine and_congr_right fun habsorbed => ?_
    rw [habsorbed.solves_cons, mapVars_eq_iff_of_orient oriented]
  | parts _ left right length _ ih =>
    rw [← ih hσ]
    refine and_congr_right fun habsorbed => ?_
    rw [habsorbed.solves_cons, left, right, solves_parts length]
  | clash differ oriented apart =>
    refine iff_of_false ?_ (by simp)
    rintro ⟨habsorbed, hsolves⟩
    obtain ⟨heq, -⟩ := habsorbed.solves_cons.1 hsolves
    obtain ⟨f, as, bs, hl, hr, hlen, -⟩ := app_of_orient_eq_none oriented differ hθ heq
    exact apart f as bs hl hr hlen

end UnifiesTo

/-! ## Bounds -/

/-- The variables of equations. -/
def equationVars (eqs : List Equation) : List Var :=
  eqs.flatMap fun e => e.1.occurrences ++ e.2.occurrences

theorem mem_equationVars {eqs : List Equation} {y : Var} :
    y ∈ equationVars eqs ↔ ∃ e ∈ eqs, y ∈ e.1.occurrences ∨ y ∈ e.2.occurrences := by
  simp only [equationVars, List.mem_flatMap, List.mem_append]

/-- A binding takes its variable out of the equations and brings in no new one. -/
theorem mem_equationVars_single {x y : Var} {t : Term} (hx : x ∉ t.occurrences)
    {eqs : List Equation} (h : y ∈ equationVars (eqs.map (Subst.single x t).applyEquation)) :
    y ≠ x ∧ y ∈ equationVars ((.var x, t) :: eqs) := by
  have side : ∀ {u : Term}, y ∈ ((Subst.single x t).apply u).occurrences →
      y ∈ t.occurrences ∨ y ≠ x ∧ y ∈ u.occurrences := by
    intro u hy
    obtain ⟨z, hz, hy⟩ := Term.mem_occurrences_mapVars.1 hy
    by_cases hzx : z = x
    · rw [hzx, Subst.value_single_self] at hy
      exact .inl hy
    · rw [Subst.value_single_of_ne hzx, Term.occurrences, List.mem_singleton] at hy
      exact .inr (hy ▸ ⟨hzx, hz⟩)
  obtain ⟨_, he, hy⟩ := mem_equationVars.1 h
  obtain ⟨e, he', rfl⟩ := List.mem_map.1 he
  have hy : y ∈ t.occurrences ∨ y ≠ x ∧ (y ∈ e.1.occurrences ∨ y ∈ e.2.occurrences) := by
    rcases hy with hy | hy
    · exact (side hy).imp_right fun h => ⟨h.1, .inl h.2⟩
    · exact (side hy).imp_right fun h => ⟨h.1, .inr h.2⟩
  rcases hy with hy | ⟨hne, hy⟩
  · exact ⟨fun hyx => hx (hyx ▸ hy), mem_equationVars.2 ⟨_, List.mem_cons_self .., .inr hy⟩⟩
  · exact ⟨hne, mem_equationVars.2 ⟨e, List.mem_cons_of_mem _ he', hy⟩⟩

theorem leftSize_parts {as bs : List Term} (h : as.length = bs.length) (rest : List Equation) :
    leftSize ((as.zip bs).reverse ++ rest) = Term.sizeList as + leftSize rest := by
  have hreverse : ∀ ts : List Term, Term.sizeList ts.reverse = Term.sizeList ts := by
    intro ts
    induction ts with
    | nil => rfl
    | cons t ts ih =>
      rw [List.reverse_cons, Term.sizeList_append, ih, Term.sizeList, Term.sizeList, Term.sizeList]
      omega
  rw [leftSize, List.map_append, List.map_reverse, List.map_fst_zip h.le, Term.sizeList_append,
    hreverse, leftSize]

section FirstMismatch

variable {σ : Subst} {l r : Term} {eqs eqs' : List Equation} {m : Mismatch}

/-- What the rounds on the given equations come to up to the next binding. -/
def Mismatch.Follows (σ : Subst) (eqs : List Equation) : Mismatch → Prop
  | .none => UnifiesTo eqs σ (some σ)
  | .clash => UnifiesTo eqs σ Option.none
  | .binding x t rest => σ.CanBind x t ∧
      (∀ y ∈ equationVars ((.var x, t) :: rest), y ∈ equationVars (eqs.map σ.applyEquation)) ∧
      ∃ rest', rest = rest'.map σ.applyEquation ∧
        ∀ result, UnifiesTo rest' (σ.bind id x t) result → UnifiesTo eqs σ result

theorem Mismatch.Follows.round (h : m.Follows σ eqs)
    (hround : ∀ result, UnifiesTo eqs σ result → UnifiesTo eqs' σ result)
    (hvars : ∀ y ∈ equationVars (eqs.map σ.applyEquation),
      y ∈ equationVars (eqs'.map σ.applyEquation)) : m.Follows σ eqs' := by
  cases m with
  | none => exact hround _ h
  | clash => exact hround _ h
  | binding x t rest =>
    obtain ⟨hbind, hy, rest', hrest, hgo⟩ := h
    exact ⟨hbind, fun y h => hvars y (hy y h), rest', hrest, fun result h => hround _ (hgo result h)⟩

theorem mem_equationVars_map_cons : ∀ y ∈ equationVars (eqs.map σ.applyEquation),
    y ∈ equationVars (((l, r) :: eqs).map σ.applyEquation) :=
  fun _ hy => List.mem_append_right _ hy

section Parts

variable {f : Symbol} {as bs : List Term} (hl : σ.apply l = .app f as) (hr : σ.apply r = .app f bs)

include hl hr

theorem map_applyEquation_parts (hσ : σ.Idempotent) :
    ((as.zip bs).reverse ++ eqs).map σ.applyEquation =
      (as.zip bs).reverse ++ eqs.map σ.applyEquation := by
  have stays : ∀ {u : Term} {ts : List Term}, σ.apply u = .app f ts → ∀ t ∈ ts, σ.apply t = t := by
    intro u ts hu t ht
    refine Subst.apply_of_unbound fun y hy => hσ.apply (t := u) y ?_
    rw [hu]
    exact Term.mem_occurrences_app.2 ⟨t, ht, hy⟩
  have hzip : (as.zip bs).map σ.applyEquation = as.zip bs := by
    refine (List.map_congr_left fun e he => ?_).trans (List.map_id _)
    obtain ⟨ha, hb⟩ := List.of_mem_zip he
    rw [Subst.applyEquation, stays hl _ ha, stays hr _ hb]
    rfl
  rw [List.map_append, List.map_reverse, hzip]

theorem Mismatch.Follows.parts (hσ : σ.Idempotent) (hne : σ.apply l ≠ σ.apply r)
    (hlen : as.length = bs.length) (h : m.Follows σ ((as.zip bs).reverse ++ eqs)) :
    m.Follows σ ((l, r) :: eqs) := by
  refine h.round (fun _ => .parts hne hl hr hlen) fun y hy => ?_
  rw [map_applyEquation_parts hl hr hσ, mem_equationVars] at hy
  obtain ⟨e, he, hy⟩ := hy
  rcases List.mem_append.1 he with he | he
  · obtain ⟨ha, hb⟩ := List.of_mem_zip (List.mem_reverse.1 he)
    refine mem_equationVars.2 ⟨_, List.mem_cons_self .., ?_⟩
    rw [Subst.applyEquation, hl, hr]
    exact hy.imp (fun hy => Term.mem_occurrences_app.2 ⟨_, ha, hy⟩)
      fun hy => Term.mem_occurrences_app.2 ⟨_, hb, hy⟩
  · exact mem_equationVars_map_cons y (mem_equationVars.2 ⟨e, he, hy⟩)

end Parts

/-- As many rounds as the left sides are large lead to the next binding. -/
theorem follows_firstMismatch (hσ : σ.Idempotent) : ∀ {n : Nat} (eqs : List Equation),
    leftSize (eqs.map σ.applyEquation) ≤ n →
      (firstMismatch n (eqs.map σ.applyEquation)).Follows σ eqs
  | n, [], _ => by
    rw [List.map_nil, firstMismatch]
    exact .done
  | 0, (l, r) :: eqs, h => by
    have hpos := (σ.apply l).size_pos
    change (σ.apply l).size + leftSize (eqs.map σ.applyEquation) ≤ 0 at h
    omega
  | n + 1, (l, r) :: eqs, h => by
    have hpos := (σ.apply l).size_pos
    change (σ.apply l).size + leftSize (eqs.map σ.applyEquation) ≤ n + 1 at h
    rw [List.map_cons, Subst.applyEquation]
    unfold firstMismatch
    simp only
    split
    · rename_i hsame
      exact (follows_firstMismatch hσ eqs (by omega)).round (fun _ => .drop hsame)
        mem_equationVars_map_cons
    · rename_i hne
      split
      · rename_i x t ho
        refine ⟨hσ.canBind hne ho, fun y hy => ?_, eqs, rfl, fun _ => .bind hne ho⟩
        rcases List.mem_append.1 hy with hy | hy
        · exact List.mem_append_left _ (mem_occurrences_of_orient ho y hy)
        · exact mem_equationVars_map_cons y hy
      · rename_i ho
        split
        · rename_i f as g bs hl hr
          split
          · rename_i hfg
            obtain ⟨rfl, hlen⟩ := hfg
            rw [hl, Term.size] at h
            rw [← map_applyEquation_parts hl hr hσ]
            refine (follows_firstMismatch hσ _ ?_).parts hl hr hσ hne hlen
            rw [map_applyEquation_parts hl hr hσ, leftSize_parts hlen]
            omega
          · rename_i hfg
            refine .clash hne ho fun h as' bs' hl' hr' hlen => ?_
            cases hl.symm.trans hl'
            cases hr.symm.trans hr'
            exact hfg ⟨rfl, hlen⟩
        · rename_i hnot
          exact .clash hne ho fun f as bs hl hr => (hnot f as f bs hl hr).elim

end FirstMismatch

/-- As many bindings as there are variables solve the equations. -/
theorem unifiesTo_solveEquations {n : Nat} : ∀ (eqs : List Equation) {σ : Subst} (vs : List Var),
    σ.Idempotent → (∀ y ∈ equationVars (eqs.map σ.applyEquation), y ∈ vs) → vs.length ≤ n →
      UnifiesTo eqs σ (solveEquations n (eqs.map σ.applyEquation) σ) := by
  have hself : ∀ (x : Var) (t : Term) (rest : List Equation),
      x ∈ equationVars ((.var x, t) :: rest) := fun x t rest =>
    mem_equationVars.2 ⟨_, List.mem_cons_self .., .inl (List.mem_singleton.2 rfl)⟩
  induction n with
  | zero =>
    intro eqs σ vs hσ hvs hn
    have hfollows := follows_firstMismatch hσ eqs le_rfl
    unfold solveEquations
    cases hm : firstMismatch (leftSize (eqs.map σ.applyEquation)) (eqs.map σ.applyEquation) with
    | none => rwa [hm] at hfollows
    | clash => rwa [hm] at hfollows
    | binding x t rest =>
      rw [hm] at hfollows
      have hpos := List.length_pos_of_mem (hvs x (hfollows.2.1 x (hself x t rest)))
      omega
  | succ n ih =>
    intro eqs σ vs hσ hvs hn
    have hfollows := follows_firstMismatch hσ eqs le_rfl
    unfold solveEquations
    cases hm : firstMismatch (leftSize (eqs.map σ.applyEquation)) (eqs.map σ.applyEquation) with
    | none => rwa [hm] at hfollows
    | clash => rwa [hm] at hfollows
    | binding x t rest =>
      rw [hm] at hfollows
      obtain ⟨hbind, hvars, rest, rfl, hgo⟩ := hfollows
      have hmap := hbind.map_applyEquation_bind rest
      have hx : x ∈ vs := hvs x (hvars x (hself x t _))
      have hxt : x ∉ t.occurrences := fun h => (hbind.free x h).1 rfl
      simp only
      rw [hmap]
      refine hgo _ (ih rest (vs.erase x) (hbind.idempotent hσ) (fun y hy => ?_) ?_)
      · rw [← hmap] at hy
        obtain ⟨hne, hy⟩ := mem_equationVars_single hxt hy
        exact (List.mem_erase_of_ne hne).2 (hvs y (hvars y hy))
      · rw [List.length_erase_of_mem hx]
        omega

/-- The bounds of unification by structure are never met. -/
theorem unifiesTo_mostGeneralUnifier (l r : Term) :
    UnifiesTo [(l, r)] ∅ (mostGeneralUnifier l r) := by
  have hempty : ∀ t, (∅ : Subst).apply t = t := fun t =>
    Subst.apply_of_unbound fun y _ => SortedMap.get?_empty y
  have hmap : [(l, r)].map (∅ : Subst).applyEquation = [(l, r)] := by
    rw [List.map_singleton, Subst.applyEquation, hempty, hempty]
  have hvars : ∀ y ∈ equationVars ([(l, r)].map (∅ : Subst).applyEquation),
      y ∈ l.vars ++ r.vars := by
    rw [hmap]
    intro y hy
    obtain ⟨e, he, hy⟩ := mem_equationVars.1 hy
    cases List.mem_singleton.1 he
    exact List.mem_append.2 (hy.imp List.mem_eraseDups.2 List.mem_eraseDups.2)
  have hends := unifiesTo_solveEquations [(l, r)] _ Subst.Idempotent.empty hvars List.length_append.le
  rwa [hmap] at hends

/-! ## Most general unifiers -/

/-- An idempotent substitution that respects sorts and makes two terms equal, and through which all
others factor that respect sorts and do so: each is what it is itself when applied after this one. -/
structure Subst.MostGeneral (σ : Subst) (l r : Term) : Prop where
  idempotent : σ.Idempotent
  sorts : RespectsSorts σ.value
  unifies : σ.apply l = σ.apply r
  general : ∀ θ, RespectsSorts θ → l.mapVars θ = r.mapVars θ →
    ∀ x, θ x = (σ.value x).mapVars θ

/-- Unification by structure of any two terms ends. If it finds a substitution, that is a most general
one, and if it finds none, then no substitution that respects sorts makes the terms equal. -/
theorem mostGeneralUnifier_exact (l r : Term) :
    (∀ result, UnifiesTo [(l, r)] ∅ result ↔ result = mostGeneralUnifier l r) ∧
      (∀ σ, mostGeneralUnifier l r = some σ → σ.MostGeneral l r) ∧
      (mostGeneralUnifier l r = none → ∀ θ, RespectsSorts θ → l.mapVars θ ≠ r.mapVars θ) := by
  have hends := unifiesTo_mostGeneralUnifier l r
  have hempty : (∅ : Subst).Idempotent := .empty
  have hproper := hends.proper hempty fun x => TermSort.admits_self _
  -- The substitutions that make the terms equal are those that take in what is found.
  have hsolutions : ∀ {θ}, RespectsSorts θ →
      (l.mapVars θ = r.mapVars θ ↔ ∃ τ ∈ mostGeneralUnifier l r, τ.Absorbed θ) := by
    intro θ hθ
    rw [← hends.solutions hempty hθ, and_iff_right Subst.Absorbed.empty]
    simp [Solves]
  refine ⟨fun result => ⟨fun h => h.unique hends, fun h => h ▸ hends⟩, fun σ hσ => ?_,
    fun hnone θ hθ he => ?_⟩
  · obtain ⟨hi, hs⟩ := hproper σ hσ
    refine ⟨hi, hs, (hsolutions hs).2 ⟨σ, hσ, hi.absorbed⟩, fun θ hθ he x => ?_⟩
    obtain ⟨τ, hτ, habsorbed⟩ := (hsolutions hθ).1 he
    cases hσ.symm.trans hτ
    exact (habsorbed x).symm
  · obtain ⟨τ, hτ, -⟩ := (hsolutions hθ).1 he
    cases hnone.symm.trans hτ

end ProtocolProver
