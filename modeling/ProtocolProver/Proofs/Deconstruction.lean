import ProtocolProver.Proofs.Construction

/-!
# Deconstruction of what is known

`Theory.Releases` says what can be taken out of a message and with the help of which others: by the
rule of a destructor, a factor of an exponent at a time, out of an inverse, or a summand of a sum.
These are the steps that `extract` lists (`releases_of_mem_extract`, `exists_mem_extract`), so a round
of deconstruction learns exactly what known messages release while the helping messages are derivable
(`mem_deconstruct`).
-/

namespace ProtocolProver

/-! ## Picks -/

theorem perm_of_mem_picks {α : Type} {a : α} {rest : List α} : ∀ {l : List α},
    (a, rest) ∈ picks l → l.Perm (a :: rest)
  | x :: xs, h => by
    rcases List.mem_cons.1 h with h | h
    · cases h
      exact .refl _
    · obtain ⟨⟨b, bs⟩, hb, he⟩ := List.mem_map.1 h
      cases he
      exact ((perm_of_mem_picks hb).cons x).trans (.swap a x bs)

theorem sublist_of_mem_picks {α : Type} {a : α} {rest : List α} : ∀ {l : List α},
    (a, rest) ∈ picks l → rest.Sublist l
  | x :: xs, h => by
    rcases List.mem_cons.1 h with h | h
    · cases h
      exact List.sublist_cons_self ..
    · obtain ⟨⟨b, bs⟩, hb, he⟩ := List.mem_map.1 h
      cases he
      exact (sublist_of_mem_picks hb).cons_cons x

theorem exists_mem_picks {α : Type} {a : α} : ∀ {l : List α}, a ∈ l → ∃ rest, (a, rest) ∈ picks l
  | x :: xs, h => by
    rcases List.mem_cons.1 h with rfl | h
    · exact ⟨xs, List.mem_cons_self ..⟩
    · obtain ⟨rest, hrest⟩ := exists_mem_picks h
      exact ⟨x :: rest, List.mem_cons_of_mem _ (List.mem_map.2 ⟨_, hrest, rfl⟩)⟩

namespace Theory

/-! ## What a message releases -/

/-- A deconstruction step: whoever has the message `t` and the messages of `side` gets `u`. -/
inductive Releases (T : Theory) : Term → List Term → Term → Prop
  | rule {t u : Term} {side : List Term} : T.Destructs t side u → T.Releases t side u
  | factor {b e f : Term} {rest : List Term} : T.algebras.exponents = true →
      (f, rest) ∈ picks (Exponent.factors e) →
        T.Releases (.app .exp [b, e]) [f] (Exponent.raise b (Exponent.product rest))
  | inverse {a : Term} : T.algebras.exponents = true → T.Releases (.app .inv [a]) [] a
  | summand {a : Term} {as rest : List Term} : T.algebras.xor = true → (a, rest) ∈ picks as →
      T.Releases (.app .xor as) [ExclusiveOr.sum rest] a

variable {T : Theory} {t u : Term} {side : List Term}

theorem Destructs.free (hT : T.Standard) {f : Symbol} {as : List Term}
    (h : T.Destructs (.app f as) side u) : T.algebras.owner? f = none := by
  obtain ⟨r, i, g, bs, c, ps, θ, hopens, he, -⟩ := h
  rw [Term.mapVars_app] at he
  cases he
  exact (Term.has_app.1 (hopens.patterns hT _ (List.mem_of_getElem? hopens.arg))).1.1.free

section Message

variable (hT : T.OfPacks)

include hT

theorem Destructs.message (ht : T.Message t) (h : T.Destructs t side u) :
    T.Message u ∧ ∀ a ∈ side, T.Message a := by
  obtain ⟨r, i, g, as, c, ps, θ, hopens, rfl, rfl, rfl⟩ := h
  obtain ⟨v, hrhs, hv⟩ := hT.shallow.output hopens
  have hvalue := ht.of_mapVars
  refine ⟨?_, List.forall_mem_map.2 fun a ha => ?_⟩
  · rw [hrhs]
    exact hvalue v (Term.mem_occurrences_app.2 ⟨_, hv, by simp [Term.occurrences]⟩)
  · have ha := List.mem_of_mem_eraseIdx ha
    refine .pattern (hopens.patterns hT.standard a ha) fun x hx =>
      hvalue x (hT.shallow.bound hopens x ?_)
    rw [hopens.lhs]
    exact Term.mem_occurrences_app.2 ⟨a, ha, hx⟩

theorem Releases.message (ht : T.Message t) (h : T.Releases t side u) :
    T.Message u ∧ ∀ a ∈ side, T.Message a := by
  cases h with
  | rule h => exact h.message hT ht
  | @factor b e f rest ha hpick =>
    have he := ht.args e (by simp)
    obtain ⟨hf, hrest⟩ := mem_picks hpick
    obtain ⟨b', e', hbe, hb, -⟩ := (ht.normal.exponent_root ha rfl).exp rfl
    cases hbe
    exact ⟨.raise ha hb (ht.args b (by simp))
      (.product ha ((he.normal.exponent ha).reduced.subset hrest) fun x hx =>
        he.factors x (hrest x hx)), List.forall_mem_singleton.2 (he.factors f hf)⟩
  | inverse ha => exact ⟨ht.args u (by simp), List.forall_mem_nil _⟩
  | @summand _ as rest ha hpick =>
    obtain ⟨hu, hrest⟩ := mem_picks hpick
    obtain ⟨-, -, hr⟩ := (ht.normal.xor_root ha rfl).xor rfl
    exact ⟨ht.args u hu, List.forall_mem_singleton.2 (.sum ha (fun x hx => hr.summand x (hrest x hx))
      fun x hx => ht.args x (hrest x hx))⟩

end Message

end Theory

/-! ## Extractions -/

/-- An extraction stands for a step if its equations have unifiers, all of which give the output and
the side terms of the step. -/
structure Extraction.Stands (T : Theory) (e : Extraction) (side : List Term) (u : Term) : Prop where
  solvable : ∀ s : VarSupply, ∃ σ, σ ∈ ((T.unify e.eqs ∅).run s).1.substs
  output : ∀ s : VarSupply, ∀ σ ∈ ((T.unify e.eqs ∅).run s).1.substs,
    T.normalize (σ.apply e.output) = u
  sides : ∀ s : VarSupply, ∀ σ ∈ ((T.unify e.eqs ∅).run s).1.substs,
    (e.side.map fun a => T.normalize (σ.apply a)) = side

namespace Theory

variable {T : Theory} {t u : Term} {side : List Term}

theorem stands_of_eqs_nil (output : Term) (side : List Term) :
    (⟨[], output, side⟩ : Extraction).Stands T (side.map T.normalize) (T.normalize output) := by
  have hunify : ∀ s : VarSupply, ((T.unify [] ∅).run s).1.substs = [∅] := fun s => rfl
  have happly : ∀ t : Term, (∅ : Subst).apply t = t := fun t => t.mapVars_var
  constructor <;> simp [hunify, happly]

section Rules

variable (hT : T.OfPacks) {r : Reduction} {i k : Nat} {g c : Symbol} {as ps : List Term}

include hT

theorem instance_of_mem_unify (hopens : T.Opens r i g as c ps) (ht : T.Message t) {s : VarSupply}
    {σ : Subst} (hσ : σ ∈ ((T.unify (extraction t r i as c ps k).eqs ∅).run s).1.substs) :
    (Term.app c ps).mapVars (fun x => T.normalize (σ.value (x.reindex k))) = t := by
  have hpattern := hopens.patterns hT.standard _ (List.mem_of_getElem? hopens.arg)
  have hsolves : T.normalize (σ.apply t) = T.normalize (σ.apply ((Term.app c ps).reindex k)) := by
    simpa [solves, equal, extraction] using solves_of_mem_unify hσ
  rw [normalize_apply_reindex hpattern, Subst.apply, Term.mapVars_of_isGround ht.ground,
    ht.normal.normalize] at hsolves
  exact hsolves.symm

/-- The extraction of a rule stands for the step that the rule takes. -/
theorem stands_extraction (hopens : T.Opens r i g as c ps) {θ : Var → Term}
    (ht : T.Message ((Term.app c ps).mapVars θ)) :
    (extraction ((Term.app c ps).mapVars θ) r i as c ps k).Stands T
      ((as.eraseIdx i).map (Term.mapVars θ)) (r.rhs.mapVars θ) := by
  have hpatterns := hopens.patterns hT.standard
  have hpattern := hpatterns _ (List.mem_of_getElem? hopens.arg)
  have hidx : ∀ x ∈ (Term.app c ps).occurrences, x.idx = 0 := fun x hx => by
    refine hT.shallow.idx r hopens.mem x ?_
    rw [hopens.lhs]
    exact Term.mem_occurrences_app.2 ⟨_, List.mem_of_getElem? hopens.arg, hx⟩
  have hagrees : ∀ {s : VarSupply} {σ : Subst},
      σ ∈ ((T.unify (extraction ((Term.app c ps).mapVars θ) r i as c ps k).eqs ∅).run s).1.substs →
        ∀ x ∈ (Term.app c ps).occurrences, T.normalize (σ.value (x.reindex k)) = θ x := fun hσ =>
    Term.eq_of_mapVars_eq (instance_of_mem_unify hT hopens ht hσ)
  refine ⟨fun s => ?_, fun s σ hσ => ?_, fun s σ hσ => ?_⟩
  · -- The renamed pattern has the message as an instance too.
    have hrenamed : ((Term.app c ps).reindex k).mapVars (fun x => θ (x.reindex 0)) =
        (Term.app c ps).mapVars θ := by
      rw [Term.reindex, Term.mapVars_mapVars]
      refine Term.mapVars_congr fun x hx => congrArg θ ?_
      rw [Var.reindex, Var.reindex, ← hidx x hx]
    have hreindex : ((Term.app c ps).reindex k).Has T.patternShape :=
      hpattern.mapVars (fun x hx => .var (hpattern.var_of_mem hx :)) (fun _ h => h) fun _ _ h => h
    have hsize : ((Term.app c ps).reindex k).size < maxWork := by
      rw [Term.size_reindex]
      exact hT.size hopens
    have hunify := exists_mem_unify hreindex hsize (hrenamed.symm ▸ ht) s
    rwa [hrenamed] at hunify
  · obtain ⟨v, hrhs, hv⟩ := hT.shallow.output hopens
    change T.normalize (σ.apply (r.rhs.reindex k)) = r.rhs.mapVars θ
    rw [hrhs]
    exact hagrees hσ v (Term.mem_occurrences_app.2 ⟨_, hv, by simp [Term.occurrences]⟩)
  · refine (List.map_map ..).trans (List.map_congr_left fun a ha => ?_)
    have ha := List.mem_of_mem_eraseIdx ha
    refine (normalize_apply_reindex (hpatterns a ha) σ k).trans (Term.mapVars_congr fun x hx => ?_)
    refine hagrees hσ x (hT.shallow.bound hopens x ?_)
    rw [hopens.lhs]
    exact Term.mem_occurrences_app.2 ⟨a, ha, hx⟩

end Rules

section Algebras

theorem stands_of_message {output : Term} (hside : ∀ a ∈ side, T.Message a)
    (hout : T.normalize output = u) : (⟨[], output, side⟩ : Extraction).Stands T side u := by
  have hstands := stands_of_eqs_nil (T := T) output side
  rwa [hout, List.map_congr_left fun a ha => (hside a ha).normal.normalize, List.map_id'] at hstands

theorem stands_factor (ha : T.algebras.exponents = true) {b e f : Term} {rest : List Term}
    (ht : T.Message (.app .exp [b, e])) (hpick : (f, rest) ∈ picks (Exponent.factors e)) :
    (⟨[], .app .exp [b, Exponent.product rest], [f]⟩ : Extraction).Stands T [f]
      (Exponent.raise b (Exponent.product rest)) := by
  have he := ht.args e (by simp)
  obtain ⟨hf, hrest⟩ := mem_picks hpick
  have hproduct : T.Message (Exponent.product rest) :=
    .product ha ((he.normal.exponent ha).reduced.subset hrest) fun x hx => he.factors x (hrest x hx)
  obtain ⟨b', e', hbe, hb, -⟩ := (ht.normal.exponent_root ha rfl).exp rfl
  cases hbe
  refine stands_of_message (List.forall_mem_singleton.2 (he.factors f hf)) ?_
  rw [normalize_app_of_normal (by simp [(ht.args b (by simp)).normal, hproduct.normal]),
    reduce_exponents (Algebras.owner?_exponents ha rfl)]
  exact Exponent.power_of_base hb

theorem stands_inverse {a : Term} (ht : T.Message (.app .inv [a])) :
    (⟨[], a, []⟩ : Extraction).Stands T [] a :=
  stands_of_message (List.forall_mem_nil _) (ht.args a (by simp)).normal.normalize

theorem stands_summand (hx : T.algebras.xor = true) {a : Term} {as rest : List Term}
    (ht : T.Message (.app .xor as)) (hpick : (a, rest) ∈ picks as) :
    (⟨[], a, [ExclusiveOr.sum rest]⟩ : Extraction).Stands T [ExclusiveOr.sum rest] a := by
  obtain ⟨ha, hrest⟩ := mem_picks hpick
  obtain ⟨-, -, hr⟩ := (ht.normal.xor_root hx rfl).xor rfl
  exact stands_of_message (List.forall_mem_singleton.2 (.sum hx
    (fun x hx => hr.summand x (hrest x hx)) fun x hx => ht.args x (hrest x hx)))
    (ht.args a ha).normal.normalize

end Algebras

section Extract

variable (hT : T.OfPacks)

include hT

/-- An extraction whose equations have a unifier stands for something that is released. -/
theorem releases_of_mem_extract (ht : T.Message t) {s : VarSupply} {e : Extraction}
    (he : e ∈ ((T.extract t).run s).1) {s' : VarSupply} {σ : Subst}
    (hσ : σ ∈ ((T.unify e.eqs ∅).run s').1.substs) :
    ∃ side u, T.Releases t side u ∧ e.Stands T side u := by
  cases t with
  | var | name => cases he
  | app f as =>
    rcases T.algebras.owner?_cases f with ⟨ho, ha, -⟩ | ⟨ho, ha, -⟩ | ⟨ho, -, -⟩ | ho
    · rw [Theory.extract, ho] at he
      change e ∈ Exponent.extract f as at he
      unfold Exponent.extract at he
      split at he
      · split_ifs at he with hf
        · subst hf
          obtain ⟨pick, hpick, rfl⟩ := List.mem_map.1 he
          exact ⟨_, _, .factor ha hpick, stands_factor ha ht hpick⟩
        · cases he
      · split_ifs at he with hf
        · subst hf
          cases List.mem_singleton.1 he
          exact ⟨_, _, .inverse ha, stands_inverse ht⟩
        · cases he
      · cases he
    · rw [Theory.extract, ho] at he
      change e ∈ ExclusiveOr.extract f as at he
      unfold ExclusiveOr.extract at he
      split_ifs at he with hf
      · subst hf
        obtain ⟨pick, hpick, rfl⟩ := List.mem_map.1 he
        exact ⟨_, _, .summand ha hpick, stands_summand ha ht hpick⟩
      · cases he
    · rw [Theory.extract, ho] at he
      cases he
    · obtain ⟨r, i, g, as', ps, k, hopens, -, -, rfl⟩ := (mem_extract ho as s).2.1 e he
      have hinstance := instance_of_mem_unify hT hopens ht hσ
      rw [← hinstance] at ht ⊢
      exact ⟨_, _, .rule ⟨r, i, g, as', f, ps, _, hopens, rfl, rfl, rfl⟩,
        stands_extraction hT hopens ht⟩

theorem exists_mem_extract (ht : T.Message t) (h : T.Releases t side u) (s : VarSupply) :
    ∃ e ∈ ((T.extract t).run s).1, e.Stands T side u := by
  cases h with
  | rule h =>
    obtain ⟨r, i, g, as, c, ps, θ, hopens, rfl, rfl, rfl⟩ := h
    have hfree : T.algebras.owner? c = none :=
      (Term.has_app.1 (hopens.patterns hT.standard _ (List.mem_of_getElem? hopens.arg))).1.1.free
    have hstands := fun k => stands_extraction (k := k) hT hopens ht
    rw [Term.mapVars_app] at hstands ⊢
    obtain ⟨k, -, -, hk⟩ := (mem_extract hfree (ps.map (Term.mapVars θ)) s).2.2 r i g as ps hopens
    exact ⟨_, hk, hstands k⟩
  | factor ha hpick =>
    rw [Theory.extract, Algebras.owner?_exponents ha rfl]
    exact ⟨_, List.mem_map_of_mem hpick, stands_factor ha ht hpick⟩
  | inverse ha =>
    rw [Theory.extract, Algebras.owner?_exponents ha rfl]
    exact ⟨_, List.mem_singleton.2 rfl, stands_inverse ht⟩
  | summand ha hpick =>
    rw [Theory.extract, Algebras.owner?_xor ha rfl]
    exact ⟨_, List.mem_map_of_mem hpick, stands_summand ha ht hpick⟩

end Extract

end Theory

/-! ## Rounds of deconstruction -/

theorem mem_foldl_iff {α β : Type} {step : List β → α → List β} {P : α → β → Prop} {b : β} :
    ∀ {as : List α}, (∀ a ∈ as, ∀ bs : List β, b ∈ step bs a ↔ b ∈ bs ∨ P a b) → ∀ bs : List β,
      b ∈ as.foldl step bs ↔ b ∈ bs ∨ ∃ a ∈ as, P a b
  | [], _, bs => by simp
  | a :: as, h, bs => by
    obtain ⟨ha, has⟩ := List.forall_mem_cons.1 h
    rw [List.foldl_cons, mem_foldl_iff has, ha, List.exists_mem_cons_iff, or_assoc]

theorem mem_foldlM_run {α β : Type} {step : List β → α → StateM VarSupply (List β)}
    {P : α → β → Prop} {b : β} : ∀ {as : List α}, (∀ a ∈ as, ∀ (bs : List β) (s : VarSupply),
      b ∈ ((step bs a).run s).1 ↔ b ∈ bs ∨ P a b) → ∀ (bs : List β) (s : VarSupply),
        b ∈ ((as.foldlM step bs).run s).1 ↔ b ∈ bs ∨ ∃ a ∈ as, P a b
  | [], _, bs, s => by simp; rfl
  | a :: as, h, bs, s => by
    obtain ⟨ha, has⟩ := List.forall_mem_cons.1 h
    rw [List.foldlM_cons]
    change b ∈ ((as.foldlM step ((step bs a).run s).1).run ((step bs a).run s).2).1 ↔ _
    rw [mem_foldlM_run has, ha, List.exists_mem_cons_iff, or_assoc]

namespace Knowledge

variable {T : Theory} {K : Knowledge} {t u : Term}

/-- The message `t` releases `u` with messages that are derivable. -/
def Opens (K : Knowledge) (T : Theory) (t u : Term) : Prop :=
  ∃ side, T.Releases t side u ∧ ∀ a ∈ side, K.derivable T maxConstructionDepth a = true

/-- The term is not known yet, and something known releases it. -/
def Gains (K : Knowledge) (T : Theory) (u : Term) : Prop :=
  K.contains u = false ∧ ∃ t, K.contains t = true ∧ K.Opens T t u

theorem mem_yields {e : Extraction} (learned : List Term) (s : VarSupply) :
    u ∈ ((K.yields T e learned).run s).1 ↔ u ∈ learned ∨
      ∃ σ ∈ ((T.unify e.eqs ∅).run s).1.substs, T.normalize (σ.apply e.output) = u ∧
        u.isGround = true ∧ K.contains u = false ∧ ∀ a ∈ e.side, K.derives T (σ.apply a) = true := by
  let P : Subst → Term → Prop := fun σ u => T.normalize (σ.apply e.output) = u ∧
    u.isGround = true ∧ K.contains u = false ∧ ∀ a ∈ e.side, K.derives T (σ.apply a) = true
  refine mem_foldl_iff (P := P) (fun σ _ bs => ?_) learned
  simp only [P]
  split <;> grind

section Messages

variable (hT : T.OfPacks)

include hT

theorem mem_extract_yields (ht : T.Message t) (learned : List Term) (s : VarSupply) :
    u ∈ ((do (← T.extract t).foldlM (fun learned e => K.yields T e learned) learned :
      StateM VarSupply (List Term)).run s).1 ↔
        u ∈ learned ∨ K.contains u = false ∧ K.Opens T t u := by
  let P : Extraction → Term → Prop := fun e u => K.contains u = false ∧
    ∃ side, (T.Releases t side u ∧ e.Stands T side u) ∧
      ∀ a ∈ side, K.derivable T maxConstructionDepth a = true
  have hyields : ∀ e ∈ ((T.extract t).run s).1, ∀ (bs : List Term) (s : VarSupply),
      u ∈ ((K.yields T e bs).run s).1 ↔ u ∈ bs ∨ P e u := by
    intro e he bs s'
    rw [mem_yields]
    refine or_congr_right ⟨?_, ?_⟩
    · rintro ⟨σ, hσ, rfl, -, hnew, hside⟩
      obtain ⟨side, u, hreleases, hstands⟩ := Theory.releases_of_mem_extract hT ht he hσ
      rw [hstands.output s' σ hσ] at hnew ⊢
      refine ⟨hnew, side, ⟨hreleases, hstands⟩, ?_⟩
      rw [← hstands.sides s' σ hσ]
      exact List.forall_mem_map.2 hside
    · rintro ⟨hnew, side, ⟨hreleases, hstands⟩, hside⟩
      obtain ⟨σ, hσ⟩ := hstands.solvable s'
      rw [← hstands.sides s' σ hσ] at hside
      exact ⟨σ, hσ, hstands.output s' σ hσ, (hreleases.message hT ht).1.ground, hnew,
        List.forall_mem_map.1 hside⟩
  change u ∈ ((((T.extract t).run s).1.foldlM (fun learned e => K.yields T e learned) learned).run
    ((T.extract t).run s).2).1 ↔ _
  rw [mem_foldlM_run hyields]
  refine or_congr_right ⟨?_, ?_⟩
  · rintro ⟨e, -, hnew, side, ⟨hreleases, -⟩, hside⟩
    exact ⟨hnew, side, hreleases, hside⟩
  · rintro ⟨hnew, side, hreleases, hside⟩
    obtain ⟨e, he, hstands⟩ := Theory.exists_mem_extract hT ht hreleases s
    exact ⟨e, he, hnew, side, ⟨hreleases, hstands⟩, hside⟩

/-- A round of deconstruction learns what known messages release, and nothing else. -/
theorem mem_deconstruct (hK : ∀ t, K.contains t = true → T.Message t) (s : VarSupply) :
    u ∈ ((K.deconstruct T).run s).1 ↔ K.Gains T u := by
  have hmem : ∀ t, t ∈ K.toList ↔ K.contains t = true := fun t =>
    SortedSet.contains_iff_mem_toList.symm
  refine (mem_foldlM_run (P := fun t u => K.contains u = false ∧ K.Opens T t u)
    (fun t ht learned s => mem_extract_yields hT (hK t ((hmem t).1 ht)) learned s) [] s).trans ?_
  simp only [List.not_mem_nil, false_or, Gains, hmem]
  constructor
  · rintro ⟨t, ht, hnew, h⟩
    exact ⟨hnew, t, ht, h⟩
  · rintro ⟨hnew, t, ht, h⟩
    exact ⟨t, ht, hnew, h⟩

end Messages

end Knowledge

end ProtocolProver
