import ProtocolProver.Proofs.Conservation
import ProtocolProver.Proofs.ScopedFormulas
import ProtocolProver.Proofs.TraceTruth

/-!
# Normal forms decide classical truth

A formula and its normal forms are true under the same valuations (`Formula.represents_forms`): the
one of the formula, that of its negation, and the guarded form of a universal quantification over it.
On a replayed trace, where every term is a value, evaluating the normal form of a closed formula decides
its truth, and evaluating that of its negation gives the opposite (`toNnf_decides_truth`).
-/

namespace ProtocolProver

theorem forall_mem_iff_of_forall₂ {α β : Type} {R : α → β → Prop} {p : α → Prop} {q : β → Prop}
    {as : List α} {bs : List β} (h : List.Forall₂ R as bs)
    (hpq : ∀ a ∈ as, ∀ b, R a b → (q b ↔ p a)) : (∀ b ∈ bs, q b) ↔ ∀ a ∈ as, p a := by
  induction h with
  | nil => simp
  | cons hab _ ih =>
    obtain ⟨ha, has⟩ := List.forall_mem_cons.1 hpq
    rw [List.forall_mem_cons, List.forall_mem_cons, ha _ hab, ih has]

theorem exists_mem_iff_of_forall₂ {α β : Type} {R : α → β → Prop} {p : α → Prop} {q : β → Prop}
    {as : List α} {bs : List β} (h : List.Forall₂ R as bs)
    (hpq : ∀ a ∈ as, ∀ b, R a b → (q b ↔ p a)) : (∃ b ∈ bs, q b) ↔ ∃ a ∈ as, p a := by
  induction h with
  | nil => simp
  | cons hab _ ih =>
    obtain ⟨ha, has⟩ := List.forall_mem_cons.1 hpq
    rw [List.exists_mem_cons_iff, List.exists_mem_cons_iff, ha _ hab, ih has]

namespace Formula

/-- Induction on formulas, with the hypothesis for every part of a list. -/
@[elab_as_elim]
theorem induction_parts {motive : Formula → Prop} (top : motive .top) (bot : motive .bot)
    (atom : ∀ a, motive (.atom a)) (neg : ∀ f, motive f → motive (.neg f))
    (conj : ∀ fs, (∀ f ∈ fs, motive f) → motive (.conj fs))
    (disj : ∀ fs, (∀ f ∈ fs, motive f) → motive (.disj fs))
    (imp : ∀ f g, motive f → motive g → motive (.imp f g))
    (ex : ∀ bs f, motive f → motive (.ex bs f))
    (all : ∀ bs f, motive f → motive (.all bs f)) (f : Formula) : motive f :=
  @Formula.rec motive (fun fs => ∀ f ∈ fs, motive f) top bot atom neg conj disj imp ex all
    (List.forall_mem_nil _) (fun _ _ hf hfs => List.forall_mem_cons.2 ⟨hf, hfs⟩) f

variable {I : Interpretation} {f : Formula} {v : Valuation}

theorem sat_conjuncts : f.Sat I v ↔ ∀ p ∈ f.conjuncts, p.Sat I v := by
  induction f using induction_parts with
  | top => simp [conjuncts, Sat]
  | conj fs ih =>
    rw [sat_conj, conjuncts, conjunctsList_eq]
    simp only [List.mem_flatMap]
    constructor
    · rintro h p ⟨f, hf, hp⟩
      exact (ih f hf).1 (h f hf) p hp
    · intro h f hf
      exact (ih f hf).2 fun p hp => h p ⟨f, hf, hp⟩
  | _ => simp [conjuncts]

theorem sat_negate {a : Atom} {n : Nnf} (h : a.negate = .ok n) : n.Sat I v ↔ ¬ a.Sat I v := by
  cases a with
  | action f i =>
    cases h
    rw [Nnf.Sat]
    have hv : ∀ w : Valuation, v.rebind [] w = v := fun w => by simp [Valuation.rebind]
    simp only [hv, List.forall_mem_singleton, Nnf.Sat]
    exact ⟨fun h => h v ⟨by rintro _ ⟨⟩, by rintro _ ⟨⟩⟩, fun h _ _ => h⟩
  | knows t i => cases h
  | less i j | timeEq i j =>
    cases h
    rw [Nnf.sat_disj]
    simp only [List.mem_cons, List.not_mem_nil, or_false, exists_eq_or_imp, exists_eq_left, Nnf.Sat,
      Atom.Sat]
    omega
  | eq s t =>
    cases h
    rfl

theorem of_mkGuarded {bs : List Binder} {parts : List Formula} {body n : Nnf}
    (h : mkGuarded bs parts body = .ok n) : ∃ guard, n = .guarded bs guard body ∧
      ∀ v, (∀ a ∈ guard, a.Sat I v) ↔ ∀ p ∈ parts, p.Sat I v := by
  obtain ⟨guard, hguard, h⟩ := bind_eq_ok h
  obtain ⟨⟨⟩, -, h⟩ := bind_eq_ok h
  cases h
  refine ⟨guard, rfl, fun v => forall_mem_iff_of_forall₂ (forall₂_of_mapM hguard) fun p _ a ha => ?_⟩
  unfold guardAtom at ha
  split at ha <;> cases ha
  rfl

/-- The forms of a formula mean what they are made for. -/
structure Forms.Represents (I : Interpretation) (f : Formula) (r : Forms) : Prop where
  pos : ∀ n, r.pos = .ok n → ∀ v, n.Sat I v ↔ f.Sat I v
  neg : ∀ n, r.neg = .ok n → ∀ v, n.Sat I v ↔ ¬ f.Sat I v
  parts : ∀ ns, r.parts = .ok ns → ∀ v,
    (∃ n ∈ ns, n.Sat I v) ↔ ∃ p ∈ f.conjuncts, p.atom? = none ∧ ¬ p.Sat I v
  all : ∀ bs n, r.all bs = .ok n → ∀ v, n.Sat I v ↔ (Formula.all bs f).Sat I v

/-- The atoms of a formula that is false are false, or one of its other conjuncts is. -/
theorem sat_forbid {bs : List Binder} {r : Forms} {n : Nnf} (hr : r.Represents I f)
    (h : forbid bs f r = .ok n) :
    n.Sat I v ↔ ∀ w : Valuation, w.Ranges I bs → ¬ f.Sat I (v.rebind bs w) := by
  obtain ⟨parts, hparts, h⟩ := bind_eq_ok h
  have hbody : ∀ {body : Nnf}, (∀ u, body.Sat I u ↔ ∃ n ∈ parts, n.Sat I u) →
      mkGuarded bs (f.conjuncts.filter fun p => p.atom?.isSome) body = .ok n →
        (n.Sat I v ↔ ∀ w : Valuation, w.Ranges I bs → ¬ f.Sat I (v.rebind bs w)) := by
    intro body hbody h
    obtain ⟨guard, rfl, hguard⟩ := of_mkGuarded h
    rw [Nnf.Sat]
    refine forall₂_congr fun w _ => ?_
    rw [hguard, hbody, hr.parts _ hparts, sat_conjuncts]
    simp only [List.mem_filter, Option.isSome_iff_ne_none, ne_eq]
    constructor
    · rintro h hall
      obtain ⟨p, hp, -, hn⟩ := h fun p hp => hall p hp.1
      exact hn (hall p hp)
    · intro hnot hatoms
      by_contra hall
      refine hnot fun p hp => ?_
      by_cases hatom : p.atom? = none
      · by_contra hn
        exact hall ⟨p, hp, hatom, hn⟩
      · exact hatoms p ⟨hp, hatom⟩
  cases parts with
  | nil => exact hbody (fun u => by simp [Nnf.Sat]) h
  | cons part parts => exact hbody (fun u => Nnf.sat_disj) h

theorem represents_single {x : Except FormulaError Nnf} (hf : f.conjuncts = [f]) (ha : f.atom? = none)
    (h : ∀ n, x = .ok n → ∀ v, n.Sat I v ↔ ¬ f.Sat I v) :
    ∀ ns, (fun n => [n]) <$> x = .ok ns → ∀ v,
      (∃ n ∈ ns, n.Sat I v) ↔ ∃ p ∈ f.conjuncts, p.atom? = none ∧ ¬ p.Sat I v := by
  intro ns hns v
  obtain ⟨n, hn, rfl⟩ := map_eq_ok hns
  simp [hf, ha, h n hn v]

theorem represents_forms (f : Formula) : f.forms.Represents I f := by
  have list : ∀ {fs : List Formula} {g : Forms → Except FormulaError Nnf} {ns : List Nnf},
      (formsList fs).mapM g = .ok ns → List.Forall₂ (fun f n => g f.forms = .ok n) fs ns := by
    intro fs g ns h
    rw [formsList_eq] at h
    exact (List.forall₂_map_left_iff).1 (forall₂_of_mapM h)
  induction f using induction_parts with
  | top =>
    refine ⟨fun n h => ?_, fun n h => ?_, fun ns h => ?_, by rintro _ _ ⟨⟩⟩ <;> cases h <;>
      simp [Nnf.Sat, Sat, conjuncts]
  | bot =>
    refine ⟨fun n h => ?_, fun n h => ?_, fun ns h => ?_, by rintro _ _ ⟨⟩⟩ <;> cases h <;>
      simp [Nnf.Sat, Sat, conjuncts, atom?]
  | atom a =>
    refine ⟨fun n h => ?_, fun n h v => sat_negate h, fun ns h => ?_, by rintro _ _ ⟨⟩⟩ <;> cases h <;>
      simp [Nnf.Sat, Sat, conjuncts, atom?]
  | neg f ih =>
    have hpos : ∀ n, f.forms.pos = .ok n → ∀ v, n.Sat I v ↔ ¬ (Formula.neg f).Sat I v :=
      fun n hn v => by rw [ih.pos n hn, Sat, not_not]
    exact ⟨ih.neg, hpos, represents_single rfl rfl hpos, fun bs n hn v => sat_forbid ih hn⟩
  | conj fs ih =>
    refine ⟨fun n hn v => ?_, fun n hn v => ?_, fun ns hns v => ?_, by rintro _ _ ⟨⟩⟩
    · obtain ⟨ns, hns, rfl⟩ := map_eq_ok hn
      rw [Nnf.sat_conj, sat_conj]
      exact forall_mem_iff_of_forall₂ (list hns) fun f hf n hn => (ih f hf).pos n hn v
    · obtain ⟨ns, hns, rfl⟩ := map_eq_ok hn
      rw [Nnf.sat_disj, sat_conj]
      push Not
      exact exists_mem_iff_of_forall₂ (list hns) fun f hf n hn => (ih f hf).neg n hn v
    · obtain ⟨nss, hnss, rfl⟩ := map_eq_ok hns
      rw [formsList_eq] at hnss
      have hnss := List.forall₂_map_left_iff.1 (forall₂_of_mapM hnss)
      have hparts : (∃ ns ∈ nss, ∃ n ∈ ns, n.Sat I v) ↔
          ∃ f ∈ fs, ∃ p ∈ f.conjuncts, p.atom? = none ∧ ¬ p.Sat I v :=
        exists_mem_iff_of_forall₂ hnss fun f hf ns hns => (ih f hf).parts ns hns v
      rw [conjuncts, conjunctsList_eq]
      simp only [List.mem_flatten, List.mem_flatMap]
      refine Iff.trans ?_ (hparts.trans ?_)
      · constructor
        · rintro ⟨n, ⟨ns, hns, hn⟩, h⟩
          exact ⟨ns, hns, n, hn, h⟩
        · rintro ⟨ns, hns, n, hn, h⟩
          exact ⟨n, ⟨ns, hns, hn⟩, h⟩
      · constructor
        · rintro ⟨f, hf, p, hp, h⟩
          exact ⟨p, ⟨f, hf, hp⟩, h⟩
        · rintro ⟨p, ⟨f, hf, hp⟩, h⟩
          exact ⟨f, hf, p, hp, h⟩
  | disj fs ih =>
    have hneg : ∀ n, Nnf.conj <$> (formsList fs).mapM Forms.neg = .ok n → ∀ v,
        n.Sat I v ↔ ¬ (Formula.disj fs).Sat I v := by
      intro n hn v
      obtain ⟨ns, hns, rfl⟩ := map_eq_ok hn
      rw [Nnf.sat_conj, sat_disj, not_exists]
      simp only [not_and]
      exact forall_mem_iff_of_forall₂ (list hns) fun f hf n hn => (ih f hf).neg n hn v
    refine ⟨fun n hn v => ?_, hneg, represents_single rfl rfl hneg, by rintro _ _ ⟨⟩⟩
    obtain ⟨ns, hns, rfl⟩ := map_eq_ok hn
    rw [Nnf.sat_disj, sat_disj]
    exact exists_mem_iff_of_forall₂ (list hns) fun f hf n hn => (ih f hf).pos n hn v
  | imp f g ihf ihg =>
    have hneg : ∀ n, (do return Nnf.conj [← f.forms.pos, ← g.forms.neg]) = .ok n → ∀ v,
        n.Sat I v ↔ ¬ (Formula.imp f g).Sat I v := by
      intro n hn v
      obtain ⟨p, hp, hn⟩ := bind_eq_ok hn
      obtain ⟨q, hq, hn⟩ := bind_eq_ok hn
      cases hn
      simp [Nnf.sat_conj, Sat, ihf.pos p hp, ihg.neg q hq]
    refine ⟨fun n hn v => ?_, hneg, represents_single rfl rfl hneg, fun bs n hn v => ?_⟩
    · obtain ⟨p, hp, hn⟩ := bind_eq_ok hn
      obtain ⟨q, hq, hn⟩ := bind_eq_ok hn
      cases hn
      simp [Nnf.sat_disj, Sat, ihf.neg p hp, ihg.pos q hq, imp_iff_not_or]
    · obtain ⟨q, hq, hn⟩ := bind_eq_ok hn
      obtain ⟨guard, rfl, hguard⟩ := of_mkGuarded (I := I) hn
      rw [Nnf.Sat, Sat]
      exact forall₂_congr fun w _ => by rw [hguard, ← sat_conjuncts, ihg.pos q hq, Sat]
  | ex bs f ih =>
    have hneg : ∀ n, forbid bs f f.forms = .ok n → ∀ v,
        n.Sat I v ↔ ¬ (Formula.ex bs f).Sat I v := fun n hn v => by
      rw [sat_forbid ih hn, Sat]
      simp only [not_exists, not_and]
    refine ⟨fun n hn v => ?_, hneg, represents_single rfl rfl hneg, by rintro _ _ ⟨⟩⟩
    obtain ⟨p, hp, rfl⟩ := map_eq_ok hn
    rw [Nnf.Sat, Sat]
    exact exists_congr fun w => and_congr_right fun _ => ih.pos p hp _
  | all bs f ih =>
    have hneg : ∀ n, Nnf.ex bs <$> f.forms.neg = .ok n → ∀ v,
        n.Sat I v ↔ ¬ (Formula.all bs f).Sat I v := fun n hn v => by
      obtain ⟨p, hp, rfl⟩ := map_eq_ok hn
      rw [Nnf.Sat, Sat]
      simp only [not_forall, exists_prop]
      exact exists_congr fun w => and_congr_right fun _ => ih.neg p hp _
    exact ⟨fun n => ih.all bs n, hneg, represents_single rfl rfl hneg, by rintro _ _ ⟨⟩⟩

/-- A formula and its normal form are true under the same valuations. -/
theorem sat_toNnf {n : Nnf} (h : f.toNnf = .ok n) : n.Sat I v ↔ f.Sat I v := by
  unfold toNnf at h
  split at h
  · cases h
  · cases h
  · exact f.represents_forms.pos n h v

end Formula

/-! ## Replayed traces -/

theorem Step.Fires.facts {m : Model} {step : Step} {r : Rule} {s s' : State}
    (h : step.Fires m r s s') :
    step.facts = r.facts.map (·.instantiate m.theory (.ofList step.subst)) := by
  rw [Step.facts, h.premises, h.actions, h.conclusions, Rule.facts, List.map_append, List.map_append]

theorem hasValues_of_replay {m : Model} (hT : m.theory.Standard) (hfree : m.theory.Free) {tr : Trace}
    {states : List State} (h : replay m tr = .ok states) : tr.HasValues m.theory := by
  intro step hstep
  obtain ⟨k, hk⟩ := List.mem_iff_getElem?.1 hstep
  obtain ⟨s, s', -, -, hs⟩ := replayFrom_step h hk
  obtain ⟨r, hr⟩ := fires_of_replayStep hs
  rw [hr.facts]
  refine List.forall_mem_map.2 fun f hf => List.forall_mem_map.2 fun t ht => ?_
  exact hT.value_of_isGround hfree
    (List.all_eq_true.1 (hr.ground f hf) _ (List.mem_map_of_mem ht))

theorem Nnf.Scoped.holds_iff {T : Theory} (hfree : T.Free) {tr : Trace} (htr : tr.HasValues T) {f : Nnf}
    (h : f.Scoped T.plainFragment .closed) (v : Valuation) :
    f.holds T tr = true ↔ f.Sat (.ofTrace T tr) v := by
  have hproper : ({} : Assignment).Proper (.ofTrace T tr) := ⟨nofun, nofun⟩
  have hcovers : ({} : Assignment).Covers .closed := ⟨fun _ h => h.elim, fun _ h => h.elim⟩
  have hbelow : ({} : Assignment).Below v := ⟨nofun, nofun⟩
  exact h.eval_iff (Interpretation.grounded_ofTrace hfree htr) hproper hcovers hbelow

/-- On a trace that replays, evaluating the normal form of a closed formula decides whether the formula
is true, and evaluating that of its negation decides the opposite. -/
theorem toNnf_decides_truth {pack : Pack} {sig : Signature} {T : Theory} (hp : Assembled pack sig)
    (halgebras : pack.algebras = {}) (hT : Theory.ofRules sig pack.equations pack.algebras = .ok T)
    {m : Model} (hm : m.theory = T) {tr : Trace} {states : List State}
    (hr : replay m tr = .ok states) {f : Formula} (hf : ∀ c ∈ f.actions, c.Has T.plainShape) {n : Nnf}
    (hn : f.toNnf = .ok n) :
    (∀ v, n.holds T tr = true ↔ f.Sat (.ofTrace T tr) v) ∧
      ∀ n', f.neg.toNnf = .ok n' → n'.holds T tr = !n.holds T tr := by
  have hfree : T.Free := by
    rw [Theory.ofRules_eq_ok hT]
    exact Theory.free_of_algebras halgebras
  have hstandard : T.Standard := by
    rw [Theory.ofRules_eq_ok hT]
    exact Assembled.standard hp rfl
  subst hm
  have htr := hasValues_of_replay hstandard hfree hr
  have hholds : ∀ {f : Formula} {n : Nnf}, (∀ c ∈ f.actions, c.Has m.theory.plainShape) →
      f.toNnf = .ok n → ∀ v, n.holds m.theory tr = true ↔ f.Sat (.ofTrace m.theory tr) v := by
    intro f n hf hn v
    have hscoped := Formula.scoped_toNnf (L := m.theory.plainFragment) (fun _ _ => trivial) hf hn
    rw [hscoped.2.holds_iff hfree htr v, Formula.sat_toNnf hn]
  refine ⟨hholds hf hn, fun n' hn' => ?_⟩
  let v : Valuation := ⟨.var, fun _ => 0⟩
  have hneg := @hholds f.neg n' hf hn' v
  rw [Bool.eq_iff_iff, hneg, Bool.not_eq_true', Bool.eq_false_iff, Ne, hholds hf hn v, Formula.Sat]

/-- A key is sent at one time only. -/
def sentOnce : Formula :=
  .all [.msg (.msg "k"), .time (.ofName "i"), .time (.ofName "j")]
    (.imp (.conj [.atom (.action (.linear "Sent" [.var (.msg "k")]) (.ofName "i")),
        .atom (.action (.linear "Sent" [.var (.msg "k")]) (.ofName "j"))])
      (.atom (.timeEq (.ofName "i") (.ofName "j"))))

theorem toNnf_decides_sentOnce : ∃ states n n', replay vaultModel vaultTrace = .ok states ∧
    sentOnce.toNnf = .ok n ∧ sentOnce.neg.toNnf = .ok n' ∧ n.holds vaultModel.theory vaultTrace = true ∧
      (∀ v, n.holds vaultModel.theory vaultTrace = true ↔
        sentOnce.Sat (.ofTrace vaultModel.theory vaultTrace) v) ∧
      n'.holds vaultModel.theory vaultTrace = !n.holds vaultModel.theory vaultTrace := by
  have hrun : (replay vaultModel vaultTrace).isOk = true := by decide +kernel
  have hplain : ∀ c ∈ sentOnce.actions, c.Has vaultModel.theory.plainShape := by
    have hx : (Fact.linear "Sent" [.var (.msg "k")]).Has vaultModel.theory.plainShape :=
      List.forall_mem_singleton.2 (.var trivial)
    exact List.forall_mem_cons.2 ⟨hx, List.forall_mem_singleton.2 hx⟩
  cases h : replay vaultModel vaultTrace with
  | error e => rw [h] at hrun; cases hrun
  | ok states =>
    obtain ⟨htruth, hneg⟩ := toNnf_decides_truth Assembled.builtin rfl rfl rfl h hplain rfl
    exact ⟨states, _, _, rfl, rfl, rfl, by decide +kernel, htruth, hneg _ rfl⟩

end ProtocolProver
