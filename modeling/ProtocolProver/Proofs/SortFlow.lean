import ProtocolProver.Proofs.Providers

/-!
# Sorts along the flow of facts

A replay checks the sort of a value in one place: what an `Fr` premise draws is a fresh value. All other
values of fresh and public variables may have any sort (`replay_accepts_any_sort`), whether they come
with a premise or with the rule itself.

A sort that nobody checks can still be right because of where the value comes from. A fact that a premise
takes from the state was concluded by an earlier step, so a variable of the premise has a value of
its sort if every conclusion of the model that fits the premise has one at that place
(`Model.SettlesSorts`). There may be cycles among the rules, since the steps of a run have none
(`replay_settles_sorts`).
-/

namespace ProtocolProver

/-! ## Places in facts -/

/-- The part of a term at the end of a path of argument numbers. The path leads through constructors
only, so no substitution moves the part. -/
def Theory.part? (T : Theory) : (path : List Nat) → Term → Option Term
  | [], t => some t
  | k :: path, .app f as =>
    if T.isAlgebraic f || T.isDestructor f then none else as[k]?.bind (T.part? path)
  | _ :: _, _ => none

/-- What stands at a place of a fact, in argument number `k`. -/
def Fact.part? (T : Theory) (f : Fact) (k : Nat) (path : List Nat) : Option Term :=
  f.args[k]?.bind (T.part? path)

theorem Theory.part?_instance {T : Theory} (σ : Subst) {u : Term} :
    ∀ {path : List Nat} {t : Term}, T.part? path t = some u →
      T.part? path (T.normalize (σ.apply t)) = some (T.normalize (σ.apply u))
  | [], t, h => by
    cases h
    rfl
  | k :: path, .app f as, h => by
    rw [part?] at h
    split at h
    · cases h
    · rename_i hf
      have hc : T.IsConstructor f := isConstructor_iff.2 (Bool.not_eq_true _ ▸ hf)
      obtain ⟨a, ha, h⟩ := Option.bind_eq_some_iff.1 h
      rw [Subst.apply, Term.mapVars_app, normalize_app, hc.reduce, part?, if_neg hf, List.getElem?_map,
        List.getElem?_map, ha]
      exact part?_instance σ h
  | _ :: _, .var _, h => by cases h
  | _ :: _, .name _, h => by cases h

theorem Fact.part?_instantiate {T : Theory} {f : Fact} {k : Nat} {path : List Nat} {u : Term}
    (h : f.part? T k path = some u) (σ : Subst) :
    (f.instantiate T σ).part? T k path = some (T.normalize (σ.apply u)) := by
  obtain ⟨t, ht, h⟩ := Option.bind_eq_some_iff.1 h
  rw [part?, instantiate, mapTerms, List.getElem?_map, ht]
  exact Theory.part?_instance σ h

/-! ## Settled variables -/

namespace Rule

/-- The variable stands in an `Fr` premise. -/
def Draws (r : Rule) (x : Var) : Prop :=
  ∃ f ∈ r.premises, f.pred = Pred.fresh ∧ .var x ∈ f.args

/-- Variables whose values have the right sort: those of sort message, those that are drawn, and those
of which `E` says so. -/
def Settles (E : Rule → Var → Prop) (r : Rule) (x : Var) : Prop :=
  x.sort = .msg ∨ r.Draws x ∨ E r x

/-- The instances of a term under which the settled variables have values of their sorts are of sort
`s`. -/
def Gives (E : Rule → Var → Prop) (r : Rule) (s : TermSort) (t : Term) : Prop :=
  s.admits t.sort = true ∧ ∀ y, t = .var y → r.Settles E y

theorem Gives.admits {E : Rule → Var → Prop} {r : Rule} {s : TermSort} {t : Term} (h : r.Gives E s t)
    (T : Theory) {σ : Subst}
    (hσ : ∀ y, r.Settles E y → y.sort.admits (T.normalize (σ.value y)).sort = true) :
    s.admits (T.normalize (σ.apply t)).sort = true := by
  obtain ⟨hs, hy⟩ := h
  cases t with
  | var y => exact TermSort.admits_trans hs (hσ y (hy y rfl))
  | name n => exact hs
  | app f as =>
    cases s with
    | msg => rfl
    | pub => cases hs
    | fresh => cases hs

end Rule

/-- The flow of facts settles the sorts of the variables in `E`: each has a place in a premise that is
taken from the state where every conclusion of the model that fits has a term of the sort. -/
def Model.SettlesSorts (m : Model) (E : Rule → Var → Prop) : Prop :=
  ∀ r ∈ m.rules, ∀ x, E r x → ∃ f ∈ r.premises, f.Stored ∧ ∃ k path,
    f.part? m.theory k path = some (.var x) ∧ ∀ r' ∈ m.rules, ∀ c ∈ r'.conclusions,
      c.sameKind f = true → ∃ t, c.part? m.theory k path = some t ∧ r'.Gives E x.sort t

theorem Fact.sameKind_of_instantiate_eq {T T' : Theory} {σ σ' : Subst} {c f : Fact}
    (h : c.instantiate T σ = f.instantiate T' σ') : c.sameKind f = true := by
  have hlen : (c.instantiate T σ).args.length = (f.instantiate T' σ').args.length := by rw [h]
  simp only [instantiate, mapTerms, Fact.mk.injEq, List.length_map] at h hlen
  simp [sameKind, h.1, h.2.1, hlen]

section Run

variable {m : Model} {E : Rule → Var → Prop} {tr : Trace} {states : List State}

/-- One step: if the conclusions of the earlier steps are of the sorts, so are the values of the
settled variables. -/
theorem Step.Fires.admits_of_settles (hm : m.DrawsSingly) (hE : m.SettlesSorts E) {step : Step}
    {r : Rule} {s s' : State} (hr : step.Fires m r s s')
    (hprovided : ∀ f ∈ step.premises, f.Stored → ∃ r' ∈ m.rules, ∃ c ∈ r'.conclusions, ∃ σ : Subst,
      f = c.instantiate m.theory σ ∧
        ∀ y, r'.Settles E y → y.sort.admits (m.theory.normalize (σ.value y)).sort = true)
    {x : Var} (hx : r.Settles E x) : x.sort.admits (step.value m.theory x).sort = true := by
  have hmem : r ∈ m.rules := List.mem_of_find?_eq_some hr.rule
  have hinstance : ∀ f ∈ r.premises, f.instantiate m.theory (.ofList step.subst) ∈ step.premises :=
    hr.premises ▸ fun f hf => List.mem_map_of_mem (f := Fact.instantiate m.theory _) hf
  rcases hx with hx | ⟨f, hf, hfresh, hx⟩ | hx
  · rw [hx]
    rfl
  · obtain ⟨v, hv, hargs⟩ := hm r hmem f hf hfresh
    rw [hargs, List.mem_singleton] at hx
    obtain rfl : x = v := Term.var.inj hx
    obtain ⟨s₁, huses, -⟩ := hr.uses_adds hm
    obtain ⟨name, idx, hdrawn⟩ := huses.fresh _ (hinstance f hf) hfresh
    have hvalue : step.value m.theory x = .name (.fresh name idx) := by
      rw [Fact.instantiate, Fact.mapTerms, hargs] at hdrawn
      exact (List.cons.inj hdrawn).1
    rw [hvalue, hv]
    rfl
  · obtain ⟨f, hf, hstored, k, path, hplace, hgives⟩ := hE r hmem x hx
    obtain ⟨r', hr', c, hc, σ, hfc, hσ⟩ := hprovided _ (hinstance f hf) hstored
    obtain ⟨t, ht, hgives⟩ := hgives r' hr' c hc (Fact.sameKind_of_instantiate_eq hfc.symm)
    -- The value of the variable and the instance of the conclusion stand at one place of one fact.
    have hvalue := Fact.part?_instantiate hplace (.ofList step.subst)
    rw [hfc, Fact.part?_instantiate ht σ] at hvalue
    have hvalue : m.theory.normalize (σ.apply t) = step.value m.theory x := Option.some.inj hvalue
    exact hvalue ▸ hgives.admits m.theory hσ

/-- All steps, by induction on the number of the step: premises come from earlier ones. -/
theorem admits_of_settles (hm : m.DrawsSingly) (hE : m.SettlesSorts E)
    (h : replay m tr = .ok states) (n : Nat) : ∀ step, tr[n]? = some step →
      ∀ r, m.rule? step.rule = some r → ∀ x, r.Settles E x →
        x.sort.admits (step.value m.theory x).sort = true := by
  induction n using Nat.strong_induction_on with
  | _ n ih =>
    intro step hn r hrule x hx
    obtain ⟨s, s', -, -, hstep⟩ := replayFrom_step h hn
    obtain ⟨r', hr⟩ := fires_of_replayStep hstep
    cases hr.rule.symm.trans hrule
    refine hr.admits_of_settles hm hE (fun f hf hstored => ?_) hx
    obtain ⟨i, hi⟩ := List.getElem?_of_mem hf
    obtain ⟨e, hlt, he, -⟩ := exists_provider hm h (p := ⟨n, i⟩) (by simp [Trace.premise?, hn, hi])
      hstored
    obtain ⟨earlier, hearlier, hf⟩ := Option.bind_eq_some_iff.1 he
    obtain ⟨s, s', -, -, hstep⟩ := replayFrom_step h hearlier
    obtain ⟨r', hr'⟩ := fires_of_replayStep hstep
    obtain ⟨c, hc, rfl⟩ := List.mem_map.1 (hr'.conclusions ▸ List.mem_of_getElem? hf)
    exact ⟨r', List.mem_of_find?_eq_some hr'.rule, c, hc, _, rfl,
      fun y hy => ih e.node hlt earlier hearlier r' hr'.rule y hy⟩

end Run

/-- In a run, message variables, variables that are drawn and those whose sorts are settled by the flow of
facts have values of their sorts at every step. -/
theorem replay_settles_sorts {T : Theory} {rules : List Rule} {restrictions : List Restriction}
    {lemmas : List Lemma} {tactics : List Tactic} {m : Model} {E : Rule → Var → Prop} {tr : Trace}
    {states : List State} (hm : Model.build T rules restrictions lemmas tactics = .ok m)
    (hE : m.SettlesSorts E) (h : replay m tr = .ok states) :
    ∀ step ∈ tr, ∃ r ∈ m.rules, m.rule? step.rule = some r ∧ ∀ x, r.Settles E x →
      x.sort.admits (step.value m.theory x).sort = true := by
  intro step hstep
  obtain ⟨n, hn⟩ := List.getElem?_of_mem hstep
  obtain ⟨s, s', -, -, hrun⟩ := replayFrom_step h hn
  obtain ⟨r, hr⟩ := fires_of_replayStep hrun
  exact ⟨r, List.mem_of_find?_eq_some hr.rule, hr.rule,
    admits_of_settles (Model.drawsSingly_of_build hm) hE h n step hn r hr.rule⟩

/-- A key is made, handed on with a label any number of times, and used. -/
def handoverRules : List Rule :=
  let held (k t : Term) : Fact := .linear "Held" [.app .pair [k, t]]
  [⟨"Make", .protocol, [.linear Pred.fresh [.var (.fresh "k")]], [],
      [held (.var (.fresh "k")) (.name (.pub "new"))], none, [.fresh "k"]⟩,
    ⟨"Pass", .protocol, [held (.var (.fresh "k")) (.var (.pub "t"))], [],
      [held (.var (.fresh "k")) (.var (.pub "t"))], none, [.fresh "k", .pub "t"]⟩,
    ⟨"Use", .protocol, [held (.var (.fresh "k")) (.var (.pub "t"))],
      [.linear "Used" [.var (.fresh "k"), .var (.pub "t")]], [], none, [.fresh "k", .pub "t"]⟩]

def handoverModel : Model :=
  ⟨⟨.builtin, {}, Reduction.projections⟩, handoverRules ++ [.learn], [], [], [], 3⟩

def handoverTrace : Trace :=
  let k : Term := .name (.fresh "k" 0)
  let t : Term := .name (.pub "new")
  let held : Fact := .linear "Held" [.app .pair [k, t]]
  [⟨"Make", [(.fresh "k", k)], [.linear Pred.fresh [k]], [], [held]⟩,
    ⟨"Pass", [(.fresh "k", k), (.pub "t", t)], [held], [], [held]⟩,
    ⟨"Use", [(.fresh "k", k), (.pub "t", t)], [held], [.linear "Used" [k, t]], []⟩]

/-- The variables of the rules that take the key from the state. -/
def handedOver (r : Rule) (x : Var) : Prop :=
  r.name ∈ ["Pass", "Use"] ∧ x ∈ [Var.fresh "k", Var.pub "t"]

theorem settlesSorts_handover : handoverModel.SettlesSorts handedOver := by
  intro r hr x ⟨hname, hx⟩
  have hpremise : .linear "Held" [.app .pair [.var (.fresh "k"), .var (.pub "t")]] ∈ r.premises := by
    fin_cases hr <;> first | exact absurd hname (by decide) | exact List.mem_singleton_self _
  refine ⟨_, hpremise, ⟨by decide, by decide⟩, 0, ?_⟩
  -- The key is what was drawn or handed over before, the label the name `new` or what was handed over.
  fin_cases hx
  · refine ⟨[0], rfl, fun r' hr' => ?_⟩
    fin_cases hr'
    · exact List.forall_mem_singleton.2 fun _ => ⟨_, rfl, rfl, fun y hy => .inr (.inl
        ⟨_, List.mem_singleton_self _, rfl, hy ▸ List.mem_singleton_self _⟩)⟩
    · refine List.forall_mem_singleton.2 fun _ => ⟨_, rfl, rfl, fun y hy => .inr (.inr ⟨?_, ?_⟩)⟩
      · decide
      · cases hy; decide
    · nofun
    · nofun
  · refine ⟨[1], rfl, fun r' hr' => ?_⟩
    fin_cases hr'
    · exact List.forall_mem_singleton.2 fun _ => ⟨_, rfl, rfl, nofun⟩
    · refine List.forall_mem_singleton.2 fun _ => ⟨_, rfl, rfl, fun y hy => .inr (.inr ⟨?_, ?_⟩)⟩
      · decide
      · cases hy; decide
    · nofun
    · nofun

theorem replay_settles_sorts_handover :
    Model.build handoverModel.theory handoverRules [] [] [] = .ok handoverModel ∧
      handoverModel.SettlesSorts handedOver ∧ (replay handoverModel handoverTrace).isOk = true ∧
      ∀ step ∈ handoverTrace, ∃ r ∈ handoverModel.rules, handoverModel.rule? step.rule = some r ∧
        ∀ x, r.Settles handedOver x →
          x.sort.admits (step.value handoverModel.theory x).sort = true := by
  have hbuild : Model.build handoverModel.theory handoverRules [] [] [] = .ok handoverModel := rfl
  have hrun : (replay handoverModel handoverTrace).isOk = true := by decide +kernel
  refine ⟨hbuild, settlesSorts_handover, hrun, ?_⟩
  cases h : replay handoverModel handoverTrace with
  | error e => rw [h] at hrun; cases hrun
  | ok states => exact replay_settles_sorts hbuild settlesSorts_handover h

/-- A tag of any name is set, a fresh value is taken from it, and one from the network. -/
def untypedRules : List Rule :=
  [⟨"Tag", .protocol, [], [.linear "Tagged" [.var (.pub "x")]], [.linear "St" [.var (.pub "x")]], none,
      [.pub "x"]⟩,
    ⟨"Use", .protocol, [.linear "St" [.var (.fresh "k")]], [.linear "Used" [.var (.fresh "k")]], [],
      none, [.fresh "k"]⟩,
    ⟨"Read", .protocol, [.linear Pred.input [.var (.fresh "n")]],
      [.linear "Got" [.var (.fresh "n")]], [], none, [.fresh "n"]⟩]

def untypedModel : Model :=
  ⟨⟨.builtin, {}, Reduction.projections⟩, untypedRules ++ [.learn], [], [], [], 3⟩

/-- Every variable of the rules gets the value `⟨'a', 'b'⟩`. -/
def untypedTrace : Trace :=
  let t : Term := .app .pair [.name (.pub "a"), .name (.pub "b")]
  [⟨"Tag", [(.pub "x", t)], [], [.linear "Tagged" [t]], [.linear "St" [t]]⟩,
    ⟨"Use", [(.fresh "k", t)], [.linear "St" [t]], [.linear "Used" [t]], []⟩,
    ⟨"Read", [(.fresh "n", t)], [.linear Pred.input [t]], [.linear "Got" [t]], []⟩]

/-- Replay does not check the sorts of variables that come with the rule, with a premise that is taken
from the state or with a message. -/
theorem replay_accepts_any_sort :
    Model.build untypedModel.theory untypedRules [] [] [] = .ok untypedModel ∧
      (replay untypedModel untypedTrace).isOk = true ∧ ∀ step ∈ untypedTrace,
        ∃ r ∈ untypedModel.rules, untypedModel.rule? step.rule = some r ∧
          ∃ f ∈ r.facts, ∃ x, .var x ∈ f.args ∧
            x.sort.admits (step.value untypedModel.theory x).sort = false := by
  refine ⟨rfl, by decide +kernel, List.forall_mem_cons.2 ⟨?_, List.forall_mem_cons.2 ⟨?_,
    List.forall_mem_singleton.2 ?_⟩⟩⟩
  · exact ⟨untypedRules[0], .head _, rfl, .linear "St" [.var (.pub "x")], by decide, .pub "x",
      by decide, by decide +kernel⟩
  · exact ⟨untypedRules[1], .tail _ (.head _), rfl, .linear "St" [.var (.fresh "k")], by decide,
      .fresh "k", by decide, by decide +kernel⟩
  · exact ⟨untypedRules[2], .tail _ (.tail _ (.head _)), rfl, .linear "Got" [.var (.fresh "n")],
      by decide, .fresh "n", by decide, by decide +kernel⟩

end ProtocolProver
