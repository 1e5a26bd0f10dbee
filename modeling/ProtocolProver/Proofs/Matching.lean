import ProtocolProver.Proofs.TermShape
import ProtocolProver.Theory.Reduction

/-!
# Matching

Matching extends a substitution so that the pattern becomes the term (`matchTerm_sound`), and it does
not miss an instance that agrees with what is bound already (`matchTerm_complete`). It binds exactly the
variables of the pattern that are not bound yet, and there is only one way to do so (`matchTerm_exact`).
-/

namespace ProtocolProver

namespace Term

theorem mapVars_congr {t : Term} {σ τ : Var → Term} (h : ∀ v ∈ t.occurrences, σ v = τ v) :
    t.mapVars σ = t.mapVars τ := by
  induction t using induction_args with
  | var v => exact h v (by simp [occurrences])
  | name n => rfl
  | app f as ih =>
    rw [mapVars_app, mapVars_app]
    refine congrArg (app f) (List.map_congr_left fun a ha => ih a ha fun v hv => ?_)
    exact h v (mem_occurrences_app.2 ⟨a, ha, hv⟩)

theorem eq_of_mapVars_eq {t : Term} {σ τ : Var → Term} (h : t.mapVars σ = t.mapVars τ) :
    ∀ v ∈ t.occurrences, σ v = τ v := by
  induction t using induction_args with
  | var w =>
    intro v hv
    rw [occurrences, List.mem_singleton] at hv
    rw [hv]
    exact h
  | name n => intro v hv; simp [occurrences] at hv
  | app f as ih =>
    intro v hv
    obtain ⟨a, ha, hva⟩ := mem_occurrences_app.1 hv
    rw [mapVars_app, mapVars_app, app.injEq] at h
    exact ih a ha (List.map_inj_left.1 h.2 a ha) v hva

end Term

namespace Subst

/-- What `σ` binds is bound to the same in `τ`. -/
def Le (σ τ : Subst) : Prop := ∀ v t, σ.get? v = some t → τ.get? v = some t

theorem Le.refl (σ : Subst) : σ.Le σ := fun _ _ h => h

theorem Le.trans {σ τ υ : Subst} (h : σ.Le τ) (h' : τ.Le υ) : σ.Le υ :=
  fun v t ht => h' v t (h v t ht)

theorem Le.get?_eq_none {σ τ : Subst} (h : σ.Le τ) {v : Var} (hv : τ.get? v = none) :
    σ.get? v = none := by
  cases hσ : σ.get? v with
  | none => rfl
  | some t => cases hv.symm.trans (h v t hσ)

theorem value_of_get? {σ : Subst} {v : Var} {t : Term} (h : σ.get? v = some t) : σ.value v = t := by
  rw [value, h, Option.getD_some]

theorem value_of_get?_eq_none {σ : Subst} {v : Var} (h : σ.get? v = none) : σ.value v = .var v := by
  rw [value, h, Option.getD_none]

/-- Every variable of the term is bound. -/
def Binds (σ : Subst) (t : Term) : Prop := ∀ v ∈ t.occurrences, ∃ u, σ.get? v = some u

theorem Le.mapVars_eq {σ τ : Subst} (h : σ.Le τ) {t : Term} (hb : σ.Binds t) :
    t.mapVars τ.value = t.mapVars σ.value := by
  refine Term.mapVars_congr fun v hv => ?_
  obtain ⟨u, hu⟩ := hb v hv
  rw [value_of_get? hu, value_of_get? (h v u hu)]

theorem Le.binds {σ τ : Subst} (h : σ.Le τ) {t : Term} (hb : σ.Binds t) : τ.Binds t :=
  fun v hv => (hb v hv).imp fun u hu => h v u hu

end Subst

mutual

theorem matchTerm_sound : ∀ {p t : Term} {σ τ : Subst}, matchTerm p t σ = .ok τ →
    σ.Le τ ∧ τ.Binds p ∧ p.mapVars τ.value = t
  | .var v, t, σ, τ, h => by
    rw [matchTerm] at h
    have fits : τ.get? v = some t →
        τ.Binds (.var v) ∧ (Term.var v).mapVars τ.value = t := fun hv => by
      refine ⟨fun w hw => ?_, Subst.value_of_get? hv⟩
      rw [Term.occurrences, List.mem_singleton] at hw
      exact ⟨t, hw ▸ hv⟩
    split at h
    · rename_i bound hb
      split at h
      · rename_i he
        cases h
        exact ⟨.refl σ, fits (he ▸ hb)⟩
      · cases h
    · rename_i hb
      split at h
      · cases h
        refine ⟨fun w u hu => ?_, fits ?_⟩
        · rw [SortedMap.get?_insert]
          split
          · rename_i he
            rw [he, hb] at hu
            cases hu
          · exact hu
        · rw [SortedMap.get?_insert, if_pos rfl]
      · cases h
  | .name m, t, σ, τ, h => by
    rw [matchTerm] at h
    split at h
    · rename_i he
      cases h
      refine ⟨.refl σ, fun v hv => ?_, he.symm⟩
      simp [Term.occurrences] at hv
    · cases h
  | .app f ps, .app g ts, σ, τ, h => by
    rw [matchTerm] at h
    split at h
    · rename_i hfg
      obtain ⟨hle, hb, hm⟩ := matchTerms_sound hfg.2 h
      refine ⟨hle, fun v hv => ?_, ?_⟩
      · obtain ⟨p, hp, hv⟩ := Term.mem_occurrences_app.1 hv
        exact hb p hp v hv
      · rw [Term.mapVars_app, hm, hfg.1]
    · cases h
  | .app f ps, .var v, σ, τ, h => by simp [matchTerm] at h
  | .app f ps, .name n, σ, τ, h => by simp [matchTerm] at h

theorem matchTerms_sound : ∀ {ps ts : List Term} {σ τ : Subst}, ps.length = ts.length →
    matchTerms ps ts σ = .ok τ →
    σ.Le τ ∧ (∀ p ∈ ps, τ.Binds p) ∧ ps.map (Term.mapVars τ.value) = ts
  | [], [], σ, τ, _, h => by
    cases h
    exact ⟨.refl σ, by simp, rfl⟩
  | p :: ps, t :: ts, σ, τ, hl, h => by
    rw [matchTerms] at h
    split at h
    · rename_i υ hp
      obtain ⟨hle, hb, hm⟩ := matchTerm_sound hp
      obtain ⟨hle', hb', hm'⟩ := matchTerms_sound (Nat.succ.inj hl) h
      refine ⟨hle.trans hle', fun q hq => ?_, ?_⟩
      · rcases List.mem_cons.1 hq with rfl | hq
        · exact hle'.binds hb
        · exact hb' q hq
      · rw [List.map_cons, hle'.mapVars_eq hb, hm, hm']
    · cases h
  | [], _ :: _, _, _, hl, _ => nomatch hl
  | _ :: _, [], _, _, hl, _ => nomatch hl

end

mutual

/-- Matching finds every instance of the pattern that agrees with what is bound, if it gives terms of
their sorts to the other variables. -/
theorem matchTerm_complete {θ : Var → Term} : ∀ {p : Term} {σ : Subst},
    (∀ v ∈ p.occurrences, σ.get? v = none → v.sort.admits (θ v).sort = true) →
    (∀ v t, σ.get? v = some t → t = θ v) →
    ∃ τ, matchTerm p (p.mapVars θ) σ = .ok τ ∧ ∀ v t, τ.get? v = some t → t = θ v
  | .var v, σ, hs, hσ => by
    rw [Term.mapVars, matchTerm]
    split
    · rename_i bound hb
      exact ⟨σ, if_pos (hσ v bound hb), hσ⟩
    · rename_i hb
      refine ⟨_, if_pos (hs v (by simp [Term.occurrences]) hb), fun w t ht => ?_⟩
      rw [SortedMap.get?_insert] at ht
      split at ht
      · rename_i he
        cases ht
        rw [he]
      · exact hσ w t ht
  | .name m, σ, _, hσ => ⟨σ, if_pos rfl, hσ⟩
  | .app f ps, σ, hs, hσ => by
    rw [Term.mapVars_app, matchTerm, if_pos ⟨rfl, by simp⟩]
    exact matchTerms_complete
      (fun p hp v hv => hs v (Term.mem_occurrences_app.2 ⟨p, hp, hv⟩)) hσ

theorem matchTerms_complete {θ : Var → Term} : ∀ {ps : List Term} {σ : Subst},
    (∀ p ∈ ps, ∀ v ∈ p.occurrences, σ.get? v = none → v.sort.admits (θ v).sort = true) →
    (∀ v t, σ.get? v = some t → t = θ v) →
    ∃ τ, matchTerms ps (ps.map (Term.mapVars θ)) σ = .ok τ ∧ ∀ v t, τ.get? v = some t → t = θ v
  | [], σ, _, hσ => ⟨σ, rfl, hσ⟩
  | p :: ps, σ, hs, hσ => by
    obtain ⟨τ, hτ, hτθ⟩ := matchTerm_complete (hs p (List.mem_cons_self ..)) hσ
    have hopen : ∀ v, τ.get? v = none → σ.get? v = none :=
      fun _ => (matchTerm_sound hτ).1.get?_eq_none
    obtain ⟨υ, hυ, hυθ⟩ := matchTerms_complete
      (fun q hq v hv hv' => hs q (List.mem_cons_of_mem p hq) v hv (hopen v hv')) hτθ
    refine ⟨υ, ?_, hυθ⟩
    rw [List.map_cons, matchTerms, hτ]
    exact hυ

end

/-! ## What is bound -/

mutual

/-- Matching adds bindings of variables of the pattern, to parts of the term that are of their sorts. -/
theorem matchTerm_bindings {Q : Term → Prop} (hQ : ∀ f as, Q (.app f as) → ∀ a ∈ as, Q a)
    {R : Var → Term → Prop} : ∀ {p t : Term} {σ τ : Subst}, matchTerm p t σ = .ok τ → Q t →
    (∀ v ∈ p.occurrences, ∀ u, Q u → v.sort.admits u.sort = true → R v u) →
    (∀ v u, σ.get? v = some u → R v u) → ∀ v u, τ.get? v = some u → R v u
  | .var w, t, σ, τ, h, ht, hR, hσ => by
    unfold matchTerm at h
    split at h
    · split at h <;> cases h
      exact hσ
    · split at h <;> cases h
      rename_i hs
      intro v u hu
      rw [SortedMap.get?_insert] at hu
      split at hu
      · rename_i hv
        cases hu
        exact hv ▸ hR w (List.mem_singleton.2 rfl) t ht hs
      · exact hσ v u hu
  | .name _, t, σ, τ, h, _, _, hσ => by
    unfold matchTerm at h
    split at h <;> cases h
    exact hσ
  | .app f ps, .app g ts, σ, τ, h, ht, hR, hσ => by
    unfold matchTerm at h
    split at h
    · exact matchTerms_bindings hQ h (hQ _ _ ht)
        (fun p hp v hv => hR v (Term.mem_occurrences_app.2 ⟨p, hp, hv⟩)) hσ
    · cases h
  | .app .., .var _, _, _, h, _, _, _ => by simp [matchTerm] at h
  | .app .., .name _, _, _, h, _, _, _ => by simp [matchTerm] at h

theorem matchTerms_bindings {Q : Term → Prop} (hQ : ∀ f as, Q (.app f as) → ∀ a ∈ as, Q a)
    {R : Var → Term → Prop} : ∀ {ps ts : List Term} {σ τ : Subst},
    matchTerms ps ts σ = .ok τ → (∀ t ∈ ts, Q t) →
    (∀ p ∈ ps, ∀ v ∈ p.occurrences, ∀ u, Q u → v.sort.admits u.sort = true → R v u) →
    (∀ v u, σ.get? v = some u → R v u) → ∀ v u, τ.get? v = some u → R v u
  | [], _, σ, τ, h, _, _, hσ => by
    unfold matchTerms at h
    cases h
    exact hσ
  | _ :: _, [], σ, τ, h, _, _, hσ => by
    unfold matchTerms at h
    cases h
    exact hσ
  | p :: ps, t :: ts, σ, τ, h, ht, hR, hσ => by
    unfold matchTerms at h
    split at h
    · rename_i hm
      have hfirst := matchTerm_bindings hQ hm (ht t (List.mem_cons_self ..))
        (hR p (List.mem_cons_self ..)) hσ
      exact matchTerms_bindings hQ h (fun u hu => ht u (List.mem_cons_of_mem t hu))
        (fun q hq => hR q (List.mem_cons_of_mem p hq)) hfirst
    · cases h

end

theorem matchTerm_new {p t : Term} {σ τ : Subst} (h : matchTerm p t σ = .ok τ) {v : Var} {u : Term}
    (hv : σ.get? v = none) (hu : τ.get? v = some u) :
    v ∈ p.occurrences ∧ v.sort.admits u.sort = true := by
  have hbindings : ∀ v u, τ.get? v = some u →
      σ.get? v = some u ∨ v ∈ p.occurrences ∧ v.sort.admits u.sort = true :=
    matchTerm_bindings (Q := fun _ => True) (fun _ _ _ _ _ => trivial) h trivial
      (fun v hv u _ hs => .inr ⟨hv, hs⟩) fun _ _ => .inl
  exact (hbindings v u hu).resolve_left fun h => nomatch hv.symm.trans h

theorem contractRoot?_eq_some {rules : List Reduction} {t rhs : Term} {σ : Subst}
    (h : contractRoot? rules t = some (rhs, σ)) :
    ∃ r ∈ rules, r.rhs = rhs ∧ matchTerm r.lhs t ∅ = .ok σ := by
  unfold contractRoot? at h
  split at h
  · obtain ⟨r, hr, hc⟩ := List.exists_of_findSome?_eq_some h
    unfold Reduction.contract? at hc
    cases hm : matchTerm r.lhs t ∅ with
    | error e => rw [hm] at hc; cases hc
    | ok τ =>
      rw [hm] at hc
      cases hc
      exact ⟨r, (List.mem_filter.1 hr).1, rfl, hm⟩
  · cases h

/-! ## The match of a pattern with a term -/

/-- `τ` is `σ` with bindings for exactly the variables of `p` that `σ` leaves open, each to a term of
its sort. -/
structure Subst.Fills (σ : Subst) (p : Term) (τ : Subst) : Prop where
  keeps : σ.Le τ
  binds : ∀ v, τ.contains v = true ↔ σ.contains v = true ∨ v ∈ p.vars
  sorts : ∀ v t, σ.get? v = none → τ.get? v = some t → v.sort.admits t.sort = true

theorem Subst.Fills.exists_of_mem {σ τ : Subst} {p : Term} (h : σ.Fills p τ) {v : Var}
    (hv : v ∈ p.occurrences) : ∃ u, τ.get? v = some u :=
  Option.isSome_iff_exists.1 ((h.binds v).2 (.inr (List.mem_eraseDups.2 hv)))

theorem fills_of_matchTerm {p t : Term} {σ τ : Subst} (h : matchTerm p t σ = .ok τ) :
    σ.Fills p τ := by
  obtain ⟨hle, hbinds, -⟩ := matchTerm_sound h
  refine ⟨hle, fun v => ⟨fun hv => ?_, ?_⟩, fun v u hv hu => (matchTerm_new h hv hu).2⟩
  · obtain ⟨u, hu⟩ := Option.isSome_iff_exists.1 hv
    cases hσ : σ.get? v with
    | none => exact .inr (List.mem_eraseDups.2 (matchTerm_new h hσ hu).1)
    | some w => exact .inl (by rw [SortedMap.contains, hσ]; rfl)
  · rintro (hv | hv)
    · obtain ⟨u, hu⟩ := Option.isSome_iff_exists.1 hv
      exact Option.isSome_iff_exists.2 ⟨u, hle v u hu⟩
    · exact Option.isSome_iff_exists.2 (hbinds v (List.mem_eraseDups.1 hv))

/-- Only one substitution fills up another so that the pattern becomes a given term. -/
theorem Subst.Fills.unique {p : Term} {σ τ υ : Subst} (hτ : σ.Fills p τ) (hυ : σ.Fills p υ)
    (h : τ.apply p = υ.apply p) : τ = υ := by
  have hvalue : ∀ v ∈ p.occurrences, τ.value v = υ.value v := Term.eq_of_mapVars_eq h
  refine SortedMap.ext_get? fun v => ?_
  by_cases hv : v ∈ p.occurrences
  · obtain ⟨t, ht⟩ := hτ.exists_of_mem hv
    obtain ⟨u, hu⟩ := hυ.exists_of_mem hv
    rw [ht, hu, ← Subst.value_of_get? ht, ← Subst.value_of_get? hu, hvalue v hv]
  · -- Outside of the pattern nothing but `σ` binds.
    have hout : ∀ {ρ : Subst}, σ.Fills p ρ → ρ.get? v = σ.get? v := by
      intro ρ hρ
      cases hσ : σ.get? v with
      | some t => exact hρ.keeps v t hσ
      | none =>
        have hnot : ¬ρ.contains v = true := by
          rw [hρ.binds, SortedMap.contains, hσ]
          exact fun h => h.elim nofun fun h => hv (List.mem_eraseDups.1 h)
        exact Option.not_isSome_iff_eq_none.1 hnot
    rw [hout hτ, hout hυ]

theorem matchTerm_eq_ok_iff {p t : Term} {σ τ : Subst} :
    matchTerm p t σ = .ok τ ↔ σ.Fills p τ ∧ τ.apply p = t := by
  refine ⟨fun h => ⟨fills_of_matchTerm h, (matchTerm_sound h).2.2⟩, ?_⟩
  rintro ⟨hτ, rfl⟩
  have hsorts : ∀ v ∈ p.occurrences, σ.get? v = none →
      v.sort.admits (τ.value v).sort = true := by
    intro v hv hσ
    obtain ⟨u, hu⟩ := hτ.exists_of_mem hv
    rw [Subst.value_of_get? hu]
    exact hτ.sorts v u hσ hu
  obtain ⟨υ, hυ, -⟩ := matchTerm_complete hsorts
    fun v t ht => (Subst.value_of_get? (hτ.keeps v t ht)).symm
  have happly : υ.apply p = τ.apply p := (matchTerm_sound hυ).2.2
  rw [Subst.apply, hυ, (fills_of_matchTerm hυ).unique hτ happly]

/-- Matching succeeds exactly if the pattern becomes the term under some substitution that fills up the
given one, and then it ends with that substitution, which is the only one. -/
theorem matchTerm_exact (p t : Term) (σ : Subst) :
    ((∃ τ, matchTerm p t σ = .ok τ) ↔ ∃ τ, σ.Fills p τ ∧ τ.apply p = t) ∧
      ∀ τ, matchTerm p t σ = .ok τ → (σ.Fills p τ ∧ τ.apply p = t) ∧
        ∀ υ, σ.Fills p υ → υ.apply p = t → υ = τ := by
  refine ⟨exists_congr fun τ => matchTerm_eq_ok_iff, fun τ h => ?_⟩
  obtain ⟨hτ, happly⟩ := matchTerm_eq_ok_iff.1 h
  exact ⟨⟨hτ, happly⟩, fun υ hυ h' => hυ.unique hτ (h'.trans happly.symm)⟩

end ProtocolProver
