import ProtocolProver.Knowledge
import ProtocolProver.Proofs.FactFlow
import ProtocolProver.Proofs.Values

/-!
# What the adversary can deduce

From the messages that were sent, the adversary derives public names, what it builds with public
symbols and what it takes out of a message step by step. `Theory.Deduces` says both: `none` stands
for the derivation of a term, `some s` for taking it out of `s`. What the forward semantics computes
is deducible (`Knowledge.Sound.derivable`, `Knowledge.Sound.learn`).
-/

namespace ProtocolProver

/-! ## Renamed rules -/

/-- The variable with another index. -/
def Var.reindex (k : Nat) (v : Var) : Var := { v with idx := k }

/-- The term with another index for all its variables. -/
def Term.reindex (k : Nat) (t : Term) : Term := t.mapVars fun v => .var (v.reindex k)

theorem VarSupply.renameApart_run (vs : List Var) (s : VarSupply) :
    (renameApart vs).run s =
      (SortedMap.ofList (vs.map fun v => (v, .var (v.reindex s.next))), ⟨s.next + 1⟩) := rfl

theorem VarSupply.value_renameApart {vs : List Var} {s : VarSupply} {v : Var} (hv : v ∈ vs) :
    ((renameApart vs).run s).1.value v = .var (v.reindex s.next) := by
  rw [renameApart_run, Subst.value, SortedMap.get?_ofList_map, if_pos hv]
  rfl

theorem VarSupply.apply_renameApart {vs : List Var} {s : VarSupply} {t : Term}
    (h : ∀ v ∈ t.occurrences, v ∈ vs) :
    ((renameApart vs).run s).1.apply t = t.reindex s.next :=
  Term.mapVars_congr fun v hv => value_renameApart (h v hv)

theorem Reduction.renamed_run (r : Reduction) (s : VarSupply) :
    r.renamed.run s = ((r.lhs.reindex s.next, r.rhs.reindex s.next), ⟨s.next + 1⟩) := by
  have hrun : r.renamed.run s =
      ((((VarSupply.renameApart (termVars [r.lhs, r.rhs])).run s).1.apply r.lhs,
        ((VarSupply.renameApart (termVars [r.lhs, r.rhs])).run s).1.apply r.rhs), ⟨s.next + 1⟩) := rfl
  have hvars : ∀ t ∈ [r.lhs, r.rhs], ∀ v ∈ t.occurrences, v ∈ termVars [r.lhs, r.rhs] := by
    intro t ht v hv
    rw [termVars, List.mem_eraseDups, Term.occurrencesList_eq]
    exact List.mem_flatMap.2 ⟨t, ht, hv⟩
  rw [hrun, VarSupply.apply_renameApart (hvars r.lhs (by simp)),
    VarSupply.apply_renameApart (hvars r.rhs (by simp))]

/-! ## Rules that take a term apart -/

namespace Theory

/-- The rule `r` for `g` lets the adversary take apart its argument number `i`, a pattern headed by
`c`. -/
structure Opens (T : Theory) (r : Reduction) (i : Nat) (g : Symbol) (as : List Term) (c : Symbol)
    (ps : List Term) : Prop where
  mem : r ∈ T.rules
  lhs : r.lhs = .app g as
  input : r.input? = some i
  isPublic : T.signature.isPublic g = true
  arg : as[i]? = some (.app c ps)

/-- What a rule takes out stands right below the symbol that it opens, a term of that symbol tells
what else the rule needs, and rules are templates. -/
structure Shallow (T : Theory) : Prop where
  output : ∀ {r i g as c ps}, T.Opens r i g as c ps → ∃ v, r.rhs = .var v ∧ .var v ∈ ps
  bound : ∀ {r i g as c ps}, T.Opens r i g as c ps →
    ∀ v ∈ r.lhs.occurrences, v ∈ (Term.app c ps).occurrences
  idx : ∀ r ∈ T.rules, ∀ v ∈ r.lhs.occurrences, v.idx = 0

/-- The deconstruction step of `t` by a rule, renamed with the index `k`. -/
def extraction (t : Term) (r : Reduction) (i : Nat) (as : List Term) (c : Symbol) (ps : List Term)
    (k : Nat) : Extraction :=
  ⟨[(t, (Term.app c ps).reindex k)], r.rhs.reindex k, (as.eraseIdx i).map (Term.reindex k)⟩

theorem Opens.patterns {T : Theory} {r : Reduction} {i : Nat} {g c : Symbol} {as ps : List Term}
    (h : T.Opens r i g as c ps) (hT : T.Standard) : ∀ a ∈ as, a.Has T.patternShape := by
  obtain ⟨⟨g', as', hlhs, -, -, has⟩, -⟩ := hT.rule r h.mem
  rw [h.lhs] at hlhs
  cases hlhs
  exact has

/-- A renamed pattern becomes the pattern with the normal forms of what its variables are bound to. -/
theorem normalize_apply_reindex {T : Theory} {p : Term} (hp : p.Has T.patternShape) (σ : Subst)
    (k : Nat) : T.normalize (σ.apply (p.reindex k)) =
      p.mapVars fun x => T.normalize (σ.value (x.reindex k)) := by
  rw [Subst.apply, Term.reindex, Term.mapVars_mapVars, Theory.normalize, Term.eval_mapVars,
    eval_pattern hp]
  rfl

end Theory

theorem mem_mapM_run {α β : Type} {f : α → StateM VarSupply β} : ∀ (as : List α),
    (∀ a ∈ as, ∀ s : VarSupply, s.next ≤ ((f a).run s).2.next) → ∀ s : VarSupply,
      s.next ≤ ((as.mapM f).run s).2.next ∧
      (∀ b ∈ ((as.mapM f).run s).1, ∃ a ∈ as, ∃ s' : VarSupply, s.next ≤ s'.next ∧
        ((f a).run s').2.next ≤ ((as.mapM f).run s).2.next ∧ b = ((f a).run s').1) ∧
      ∀ a ∈ as, ∃ s' : VarSupply, s.next ≤ s'.next ∧
        ((f a).run s').2.next ≤ ((as.mapM f).run s).2.next ∧
          ((f a).run s').1 ∈ ((as.mapM f).run s).1
  | [], _, s => ⟨Nat.le_refl _, nofun, nofun⟩
  | a :: as, hf, s => by
    have hrun : ((a :: as).mapM f).run s =
        (((f a).run s).1 :: ((as.mapM f).run ((f a).run s).2).1,
          ((as.mapM f).run ((f a).run s).2).2) := by
      rw [List.mapM_cons]
      rfl
    obtain ⟨hfa, hf⟩ := List.forall_mem_cons.1 hf
    obtain ⟨hle, hmem, hall⟩ := mem_mapM_run as hf ((f a).run s).2
    have hfa := hfa s
    rw [hrun]
    refine ⟨hfa.trans hle, List.forall_mem_cons.2 ⟨⟨a, by simp, s, Nat.le_refl _, hle, rfl⟩, ?_⟩,
      List.forall_mem_cons.2 ⟨⟨s, Nat.le_refl _, hle, by simp⟩, ?_⟩⟩
    · intro b hb
      obtain ⟨a', ha', s', hs', hle', rfl⟩ := hmem b hb
      exact ⟨a', List.mem_cons_of_mem a ha', s', hfa.trans hs', hle', rfl⟩
    · intro a' ha'
      obtain ⟨s', hs', hle', hb⟩ := hall a' ha'
      exact ⟨s', hfa.trans hs', hle', List.mem_cons_of_mem _ hb⟩

namespace Theory

variable {T : Theory}

/-- The deconstruction steps of a term by one rule. -/
def extractWith (T : Theory) (t : Term) (rule : Reduction) : StateM VarSupply (List Extraction) := do
  match rule.lhs, rule.input? with
  | .app g as, some i =>
    if T.signature.isPublic g && t.head?.isSome && (as[i]?.bind Term.head?) == t.head? then
      let (lhs, rhs) ← rule.renamed
      return [⟨[(t, lhs.args.getD i t)], rhs, lhs.args.eraseIdx i⟩]
    else return []
  | _, _ => return []

theorem extract_eq {f : Symbol} (hf : T.algebras.owner? f = none) (bs : List Term) (s : VarSupply) :
    (T.extract (.app f bs)).run s =
      (((T.rules.mapM (T.extractWith (.app f bs))).run s).1.flatten,
        ((T.rules.mapM (T.extractWith (.app f bs))).run s).2) := by
  unfold Theory.extract
  simp only [hf]
  rfl

theorem extractWith_run {r : Reduction} (hr : r ∈ T.rules) (f : Symbol) (bs : List Term)
    (s : VarSupply) :
    (∃ i g as ps, T.Opens r i g as f ps ∧ (T.extractWith (.app f bs) r).run s =
      ([extraction (.app f bs) r i as f ps s.next], ⟨s.next + 1⟩)) ∨
    (∀ i g as ps, ¬T.Opens r i g as f ps) ∧ (T.extractWith (.app f bs) r).run s = ([], s) := by
  unfold extractWith
  split
  · rename_i g as i hlhs hinput
    split
    · rename_i hcond
      simp only [Bool.and_eq_true, Term.head?, Option.isSome_some, beq_iff_eq] at hcond
      obtain ⟨⟨hpublic, -⟩, hhead⟩ := hcond
      obtain ⟨p, hp, hhead⟩ := Option.bind_eq_some_iff.1 hhead
      cases p with
      | var | name => cases hhead
      | app c ps =>
        cases hhead
        refine .inl ⟨i, g, as, ps, ⟨hr, hlhs, hinput, hpublic, hp⟩, ?_⟩
        have hargs : (r.lhs.reindex s.next).args = as.map (Term.reindex s.next) := by
          rw [hlhs, Term.reindex, Term.mapVars_app]
          rfl
        have hget : (as.map (Term.reindex s.next)).getD i (.app f bs) =
            (Term.app f ps).reindex s.next := by
          rw [List.getD_eq_getElem?_getD, List.getElem?_map, hp]
          rfl
        have hrun : (do
            let (lhs, rhs) ← r.renamed
            return [(⟨[(.app f bs, lhs.args.getD i (.app f bs))], rhs, lhs.args.eraseIdx i⟩ :
              Extraction)] : StateM VarSupply (List Extraction)).run s =
            ([⟨[(.app f bs, (r.renamed.run s).1.1.args.getD i (.app f bs))], (r.renamed.run s).1.2,
              (r.renamed.run s).1.1.args.eraseIdx i⟩], (r.renamed.run s).2) := rfl
        rw [hrun, Reduction.renamed_run]
        simp only [hargs, hget, List.eraseIdx_map, extraction]
    · rename_i hcond
      refine .inr ⟨fun i' g' as' ps h => hcond ?_, rfl⟩
      have hl := h.lhs
      rw [hlhs] at hl
      cases hl
      have hi := h.input
      rw [hinput] at hi
      cases hi
      simp [h.isPublic, h.arg, Term.head?]
  · rename_i hnone
    exact .inr ⟨fun i g as ps h => hnone g as i h.lhs h.input, rfl⟩

/-- The deconstruction steps of an application of a free symbol are those of the rules that open
it. -/
theorem mem_extract {f : Symbol} (hf : T.algebras.owner? f = none) (bs : List Term)
    (s : VarSupply) :
    s.next ≤ ((T.extract (.app f bs)).run s).2.next ∧
    (∀ e ∈ ((T.extract (.app f bs)).run s).1, ∃ r i g as ps k, T.Opens r i g as f ps ∧ s.next ≤ k ∧
      k < ((T.extract (.app f bs)).run s).2.next ∧ e = extraction (.app f bs) r i as f ps k) ∧
    ∀ r i g as ps, T.Opens r i g as f ps → ∃ k, s.next ≤ k ∧
      k < ((T.extract (.app f bs)).run s).2.next ∧
        extraction (.app f bs) r i as f ps k ∈ ((T.extract (.app f bs)).run s).1 := by
  have hmono : ∀ r ∈ T.rules, ∀ s : VarSupply,
      s.next ≤ ((T.extractWith (.app f bs) r).run s).2.next := by
    intro r hr s
    rcases extractWith_run hr f bs s with ⟨_, _, _, _, -, hrun⟩ | ⟨-, hrun⟩ <;> simp [hrun]
  obtain ⟨hle, hmem, hall⟩ := mem_mapM_run T.rules hmono s
  rw [extract_eq hf]
  refine ⟨hle, fun e he => ?_, fun r i g as ps h => ?_⟩
  · obtain ⟨es, hes, he⟩ := List.mem_flatten.1 he
    obtain ⟨r, hr, s', hs', hlt, rfl⟩ := hmem es hes
    rcases extractWith_run hr f bs s' with ⟨i, g, as, ps, hopens, hrun⟩ | ⟨-, hrun⟩
    · rw [hrun] at he hlt
      exact ⟨r, i, g, as, ps, s'.next, hopens, hs', hlt, List.mem_singleton.1 he⟩
    · rw [hrun] at he
      cases he
  · obtain ⟨s', hs', hlt, hes⟩ := hall r h.mem
    rcases extractWith_run h.mem f bs s' with ⟨i', g', as', ps', hopens, hrun⟩ | ⟨hnone, -⟩
    · rw [hrun] at hes hlt
      obtain ⟨rfl, rfl, rfl⟩ : i' = i ∧ as' = as ∧ ps' = ps := by
        have hl := hopens.lhs.symm.trans h.lhs
        cases hl
        have hi := hopens.input.symm.trans h.input
        cases hi
        have hp := hopens.arg.symm.trans h.arg
        cases hp
        exact ⟨rfl, rfl, rfl⟩
      exact ⟨s'.next, hs', hlt, List.mem_flatten.2 ⟨_, hes, List.mem_singleton.2 rfl⟩⟩
    · exact absurd h (hnone _ _ _ _)

/-! ## Deduction -/

/-- A deconstruction step of a ground term: `u` is taken out of `t`, with the help of `side`. -/
def Destructs (T : Theory) (t : Term) (side : List Term) (u : Term) : Prop :=
  ∃ r i g as c ps, ∃ θ : Var → Term, T.Opens r i g as c ps ∧ (Term.app c ps).mapVars θ = t ∧
    (as.eraseIdx i).map (Term.mapVars θ) = side ∧ r.rhs.mapVars θ = u

/-- What follows from messages: a term (`none`), or a term out of another (`some`). -/
inductive Deduces (T : Theory) (M : Term → Prop) : Option Term → Term → Prop
  | pub (name : String) : Deduces T M none (.name (.pub name))
  | build {f : Symbol} {as : List Term} : T.signature.isPublic f = true →
      (∀ a ∈ as, Deduces T M none a) → Deduces T M none (.app f as)
  | taken {m t : Term} : M m → Deduces T M (some m) t → Deduces T M none t
  | here (t : Term) : Deduces T M (some t) t
  | step {s u t : Term} {side : List Term} : T.Destructs s side u →
      (∀ a ∈ side, Deduces T M none a) → Deduces T M (some u) t → Deduces T M (some s) t

/-- The adversary can produce the term. -/
abbrev Derives (T : Theory) (M : Term → Prop) (t : Term) : Prop := T.Deduces M none t

/-- The adversary can take the term out of another. -/
abbrev Reaches (T : Theory) (M : Term → Prop) (s t : Term) : Prop := T.Deduces M (some s) t

variable {M N : Term → Prop}

theorem Deduces.mono {o : Option Term} {t : Term} (h : T.Deduces M o t) (hle : ∀ m, M m → N m) :
    T.Deduces N o t := by
  induction h with
  | pub name => exact .pub name
  | build hf _ ih => exact .build hf ih
  | taken hm _ ih => exact .taken (hle _ hm) ih
  | here t => exact .here t
  | step hd _ _ ihside ih => exact .step hd ihside ih

theorem Reaches.trans {s t u : Term} (h : T.Reaches M s t) (h' : T.Reaches M t u) :
    T.Reaches M s u := by
  unfold Reaches at h
  generalize ho : some s = o at h
  induction h generalizing s with
  | pub | build | taken => cases ho
  | here t =>
    cases ho
    exact h'
  | step hd hside _ _ ih =>
    cases ho
    exact .step hd hside (ih h' rfl)

theorem Reaches.eq_of_name {n : Name} {t : Term} (h : T.Reaches M (.name n) t) : t = .name n := by
  cases h with
  | here => rfl
  | step hd =>
    obtain ⟨r, i, g, as, c, ps, θ, -, he, -⟩ := hd
    rw [Term.mapVars_app] at he
    cases he

/-- What is taken out of a term that was built is one of its parts. -/
theorem Shallow.mem_of_destructs (hT : T.Shallow) {f : Symbol} {as side : List Term} {u : Term}
    (h : T.Destructs (.app f as) side u) : u ∈ as := by
  obtain ⟨r, i, g, bs, c, ps, θ, hopens, he, -, hu⟩ := h
  obtain ⟨v, hrhs, hv⟩ := hT.output hopens
  rw [Term.mapVars_app] at he
  injection he with _ he
  rw [← he, ← hu, hrhs]
  exact List.mem_map_of_mem hv

/-- The term is public, is built from what follows from `N`, or is taken out of a message of `M`. -/
inductive Arises (T : Theory) (M N : Term → Prop) : Term → Prop
  | pub (name : String) : Arises T M N (.name (.pub name))
  | build {f : Symbol} {as : List Term} : T.signature.isPublic f = true → (∀ a ∈ as, T.Derives N a) →
      Arises T M N (.app f as)
  | taken {m t : Term} : M m → T.Reaches N m t → Arises T M N t

theorem Arises.derives {t : Term} (h : T.Arises M N t) (hle : ∀ m, M m → N m) : T.Derives N t := by
  cases h with
  | pub name => exact .pub name
  | build hf has => exact .build hf has
  | taken hm ht => exact .taken (hle _ hm) ht

theorem Derives.arises {t : Term} (h : T.Derives M t) (hle : ∀ m, M m → N m) : T.Arises M N t := by
  cases h with
  | pub name => exact .pub name
  | build hf has => exact .build hf fun a ha => (has a ha).mono hle
  | taken hm ht => exact .taken hm (ht.mono hle)

/-- What is taken out of a term that follows from some messages needs no others. -/
theorem Shallow.arises_of_reaches (hT : T.Shallow) (hle : ∀ m, M m → N m) {t u : Term}
    (h : T.Derives M t) (h' : T.Reaches N t u) : T.Arises M N u := by
  unfold Reaches at h'
  generalize ho : some t = o at h'
  induction h' generalizing t with
  | pub | build | taken => cases ho
  | here =>
    cases ho
    exact h.arises hle
  | step hd hside hu _ ih =>
    cases ho
    cases h with
    | pub name => exact Reaches.eq_of_name (.step hd hside hu) ▸ .pub name
    | build _ has => exact ih (has _ (hT.mem_of_destructs hd)) rfl
    | taken hm ht => exact .taken hm (Reaches.trans (ht.mono hle) (.step hd hside hu))

end Theory

/-! ## Knowledge -/

namespace Knowledge

variable {T : Theory} {M N : Term → Prop} {K : Knowledge}

/-- Everything that is kept was taken out of a message. -/
def Sound (T : Theory) (M : Term → Prop) (K : Knowledge) : Prop :=
  ∀ t, K.contains t = true → T.Value t ∧ ∃ m, M m ∧ T.Reaches M m t

theorem Sound.mono (h : K.Sound T M) (hle : ∀ m, M m → N m) : K.Sound T N := fun t ht => by
  obtain ⟨hv, m, hm, hmt⟩ := h t ht
  exact ⟨hv, m, hle m hm, hmt.mono hle⟩

theorem Sound.derives (h : K.Sound T M) {t : Term} (ht : K.contains t = true) : T.Derives M t := by
  obtain ⟨-, m, hm, hmt⟩ := h t ht
  exact .taken hm hmt

theorem Sound.derivable (hfree : T.Free) (h : K.Sound T M) : ∀ {n : Nat} {t : Term},
    K.derivable T n t = true → T.Derives M t
  | 0, t, ht => by
    unfold Knowledge.derivable at ht
    rw [Bool.or_eq_true] at ht
    rcases ht with ht | ht
    · exact h.derives ht
    · split at ht
      · exact .pub _
      · cases ht
  | n + 1, t, ht => by
    unfold Knowledge.derivable at ht
    rw [Bool.or_eq_true] at ht
    rcases ht with ht | ht
    · exact h.derives ht
    · split at ht
      · exact .pub _
      · rename_i f as
        obtain ⟨parts, hparts, hall⟩ := List.any_eq_true.1 ht
        simp only [Theory.decompose, hfree f] at hparts
        split at hparts
        · rename_i hpublic
          cases List.mem_singleton.1 hparts
          exact .build hpublic fun a ha => Sound.derivable hfree h (List.all_eq_true.1 hall a ha)
        · cases hparts
      · cases ht

theorem Sound.insert (h : K.Sound T M) {t : Term} (ht : T.Value t)
    (hm : ∃ m, M m ∧ T.Reaches M m t) : (K.insert t).Sound T M := fun u hu => by
  rw [Knowledge.contains, Knowledge.insert, SortedSet.contains_insert, Bool.or_eq_true,
    beq_iff_eq] at hu
  rcases hu with rfl | hu
  · exact ⟨ht, hm⟩
  · exact h u hu

theorem Sound.insertAll : ∀ {learned : List Term} {K : Knowledge}, K.Sound T M →
    (∀ u ∈ learned, T.Value u ∧ ∃ m, M m ∧ T.Reaches M m u) →
      (learned.foldl Knowledge.insert K).Sound T M
  | [], _, h, _ => h
  | _ :: _, _, h, hl => by
    obtain ⟨hu, hl⟩ := List.forall_mem_cons.1 hl
    rw [List.foldl_cons]
    exact Sound.insertAll (h.insert hu.1 hu.2) hl

section Learning

variable (hT : T.Standard) (hfree : T.Free) (hshallow : T.Shallow)
include hT hfree hshallow

theorem Sound.yields (h : K.Sound T M) {f : Symbol} {bs : List Term}
    (ht : K.contains (.app f bs) = true) {r : Reduction} {i : Nat} {g : Symbol} {as ps : List Term}
    (hopens : T.Opens r i g as f ps) {k : Nat} {σ : Subst}
    (hσ : T.solves σ (Theory.extraction (.app f bs) r i as f ps k).eqs = true)
    (hside : ∀ s ∈ (Theory.extraction (.app f bs) r i as f ps k).side,
      K.derives T (σ.apply s) = true) :
    let u := T.normalize (σ.apply (Theory.extraction (.app f bs) r i as f ps k).output)
    T.Value u ∧ ∃ m, M m ∧ T.Reaches M m u := by
  intro u
  obtain ⟨hvalue, m, hm, hreach⟩ := h _ ht
  obtain ⟨v, hrhs, hv⟩ := hshallow.output hopens
  let θ : Var → Term := fun x => T.normalize (σ.value (x.reindex k))
  have hargs := hopens.patterns hT
  have heq : (Term.app f ps).mapVars θ = .app f bs := by
    have hsolve := List.all_eq_true.1 hσ _ (List.mem_singleton.2 rfl)
    have hsolve := beq_iff_eq.1 hsolve
    rw [Theory.normalize_apply_reindex (hargs _ (List.mem_of_getElem? hopens.arg)), Subst.apply,
      hvalue.mapVars, hvalue.normalize hfree] at hsolve
    exact hsolve.symm
  have hout : u = θ v := by
    change T.normalize (σ.apply (r.rhs.reindex k)) = θ v
    rw [hrhs]
    rfl
  have hmem : v ∈ (Term.app f ps).occurrences :=
    Term.mem_occurrences_app.2 ⟨_, hv, List.mem_singleton.2 rfl⟩
  refine ⟨?_, m, hm, hreach.trans (.step ⟨r, i, g, as, f, ps, θ, hopens, heq, rfl, rfl⟩ ?_ ?_)⟩
  · rw [hout]
    exact (heq ▸ hvalue).of_mapVars v hmem
  · refine List.forall_mem_map.2 fun a ha => ?_
    have hd := hside _ (List.mem_map_of_mem ha)
    rw [Knowledge.derives,
      Theory.normalize_apply_reindex (hargs a (List.mem_of_mem_eraseIdx ha))] at hd
    exact h.derivable hfree hd
  · rw [hout, hrhs]
    exact .here _

theorem Sound.deconstruct (h : K.Sound T M) :
    Yields (K.deconstruct T) fun learned =>
      ∀ u ∈ learned, T.Value u ∧ ∃ m, M m ∧ T.Reaches M m u := by
  refine Yields.foldlM (fun t ht learned hlearned => ?_) nofun
  have ht : K.contains t = true := SortedSet.contains_iff_mem_toList.2 ht
  cases t with
  | var | name => exact .pure hlearned
  | app f bs =>
    have hextract : Yields (T.extract (.app f bs)) fun es => ∀ e ∈ es, ∃ r i g as ps k,
        T.Opens r i g as f ps ∧ e = Theory.extraction (.app f bs) r i as f ps k := by
      intro s e he
      obtain ⟨r, i, g, as, ps, k, hopens, -, -, rfl⟩ := (Theory.mem_extract (hfree f) bs s).2.1 e he
      exact ⟨r, i, g, as, ps, k, hopens, rfl⟩
    refine hextract.bind fun es hes => ?_
    refine Yields.foldlM (fun e he learned hlearned => ?_) hlearned
    obtain ⟨r, i, g, as, ps, k, hopens, rfl⟩ := hes e he
    refine Yields.bind (Q := fun u => ∀ σ ∈ u.substs,
      T.solves σ (Theory.extraction (.app f bs) r i as f ps k).eqs = true)
      (fun s σ hσ => Theory.solves_of_mem_unify hσ) fun u hu => .pure ?_
    generalize u.substs = substs at hu
    induction substs generalizing learned with
    | nil => exact hlearned
    | cons σ substs ih =>
      obtain ⟨hσ, hu⟩ := List.forall_mem_cons.1 hu
      refine ih _ ?_ hu
      simp only
      split
      · rename_i hcond
        simp only [Bool.and_eq_true, List.all_eq_true] at hcond
        refine List.forall_mem_append.2 ⟨hlearned, List.forall_mem_singleton.2 ?_⟩
        exact h.yields hT hfree hshallow ht hopens hσ hcond.2
      · exact hlearned

theorem Sound.analyse : ∀ {n : Nat} {K : Knowledge} {supply : VarSupply}, K.Sound T M →
    (Knowledge.analyse T n K supply).Sound T M
  | 0, _, _, h => h
  | n + 1, K, supply, h => by
    have hyields := h.deconstruct hT hfree hshallow supply
    unfold Knowledge.analyse
    split
    · exact h
    · rename_i learned supply' _ hrun
      rw [hrun] at hyields
      exact Sound.analyse (h.insertAll hyields)

theorem Sound.learn (h : K.Sound T M) {t : Term} (ht : T.Value t) (hm : M t) :
    (K.learn T t).Sound T M := by
  unfold Knowledge.learn
  rw [ht.normalize hfree]
  simp only
  split
  · exact h
  · exact Sound.analyse hT hfree hshallow (h.insert ht ⟨t, hm, .here t⟩)

end Learning

end Knowledge

end ProtocolProver
