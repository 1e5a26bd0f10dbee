import ProtocolProver.Proofs.KnowledgeSplits
import ProtocolProver.Proofs.TwinSystems
import ProtocolProver.Proofs.Witness

/-!
# Searches that end without a trace

Whatever goal is solved, a system that an execution solves has a branch that it solves, so nothing
below a refuted system was missed, and a fingerprint in the cache of the search stands for systems
that have no solution (`explains_unsolved`). Hence no trace satisfies the target of a search that was
exhausted (`not_satisfies_of_exhausted`).
-/

namespace ProtocolProver

/-- The execution solves the system under some valuation that tracks where messages come from. -/
def Execution.Solves {m : Model} (R : Execution m) (len : Nat) (S : System) : Prop :=
  ∃ v, R.Fulfils len S v ∧ R.Tracks S S.pending v

namespace Search

variable {t : Task} {R : Execution t.model} {len : Nat}

/-- The systems that a search refutes are not solved by an execution. -/
theorem explains_unsolved (hm : t.model.Plain) (ht : t.target.In .indexed t.model.theory .closed)
    (hR : R.trace.RespectsSorts t.model) (hlen : R.trace.length < len) :
    Explains t (fun trace => some (verifies t trace)) (System.WellFormed t.model.theory)
      (fun S => ¬R.Solves len S) (fun _ => True) where
  start S hS := System.Reachable.wellFormed hm.standard hm.free hm.scope ht (.start hS)
  expand hS S' hS' := by
    have hstays := System.stays_formation hm.standard hm.free hm.scope
    obtain ⟨⟨_, -, hS'⟩, -⟩ := hstays.expand ⟨rfl, hS⟩ _ S' hS'
    exact hS'
  ends _ _ := rfl
  found _ _ := trivial
  split := by
    rintro S k hS hk hlossy hnone ⟨v, hv, htracks⟩
    obtain ⟨g, hg⟩ := System.exists_of_selectGoal? hk
    obtain ⟨S', hS', hsolves⟩ := htracks.expand hm hR hlen.le hv hS hg hlossy
    exact hnone S' hS' hsolves
  alike := by
    rintro S S' hS hS' he hnone ⟨v, hv, htracks⟩
    exact hnone (htracks.of_fingerprint hS' hS he (by omega) hv)

/-- No trace that respects the sorts satisfies the target of a search that was exhausted. -/
theorem not_satisfies_of_exhausted (hm : t.model.Plain)
    (ht : t.target.In .indexed t.model.theory .closed) (h : (search t).outcome = .exhausted)
    {tr : Trace} (htr : tr.RespectsSorts t.model) : ¬t.model.Satisfies t.target tr := by
  rintro ⟨⟨states, hreplay⟩, hholds, hrestricted⟩
  obtain ⟨R, rfl⟩ := Execution.of_replay hm.draws hreplay
  obtain ⟨bounds, hjustifies⟩ :=
    exists_justifies (explains_unsolved hm ht htr (Nat.lt_succ_self R.trace.length))
  obtain ⟨-, hnone⟩ := hjustifies.exhausted h
  have hsolution : R.Fulfils (R.trace.length + 1) (System.initial t.model t.target)
      ⟨Var.someName, fun _ => 0⟩ :=
    .initial hm (fun x => .name _) Var.admits_someName ht hholds hrestricted
  obtain ⟨hmem, hsolution⟩ := hsolution.simplify hm (System.wellFormed_initial hm.scope ht)
  exact hnone _ hmem ⟨_, hsolution, (Execution.Tracks.initial t.target).simplified⟩

/-- The traces that a search returns respect the sorts. -/
theorem respectsSorts_of_witness (hm : t.model.Plain)
    (ht : t.target.In .indexed t.model.theory .closed) {tr : Trace}
    (h : (search t).outcome = .witness tr) : tr.RespectsSorts t.model := by
  obtain ⟨-, S, hS, rfl⟩ := witness_verified h
  intro step hstep r hr x hx
  obtain ⟨n, hn, rfl⟩ := List.mem_map.1 hstep
  obtain ⟨id, -, hn⟩ := List.mem_filterMap.1 hn
  have hwf := hS.wellFormed hm.standard hm.free hm.scope ht
  have hgrounding : S.grounding.Within (Shape.anyName t.model.theory.plainShape) := S.within_grounding
  refine Theory.sort_normalize ?_
  rw [Subst.value, System.realizeNode, SortedMap.ofList_entries, SortedMap.get?_mapValues]
  cases hx : n.subst.get? x with
  | none => exact TermSort.admits_self _
  | some u =>
    exact Theory.sort_normalize (hgrounding.sort_apply ((hwf.scope.nodes id n hn).has.subst x u hx).2)

end Search

/-! ## Compiled models -/

theorem Verdict.exhausted_of_ofSearch {kind : LemmaKind} {r : SearchResult}
    (h : kind = .allTraces ∧ (∃ w, ofSearch kind r = .proven w) ∨
      kind = .existsTrace ∧ ∃ w, ofSearch kind r = .falsified w) : r.outcome = .exhausted := by
  cases kind <;> cases ho : r.outcome <;> simp [ofSearch, ho] at h ⊢

theorem Formula.in_toNnf {T : Theory} {f : Formula} {target : Nnf} (hf : f.toNnf = .ok target)
    (hbinders : ∀ b ∈ f.binders, b.idx = 0) (htarget : target.Has T.plainShape) :
    target.In .indexed T .closed :=
  ⟨(scoped_toNnf hbinders (fun _ _ => trivial) hf).2, htarget⟩

section Compiled

variable {src : Surface.Model} {flags : SortedSet String} {c : Surface.Compiled}
  (hc : src.compile flags = .ok c) (hequations : src.equations = [])
  (halgebras : c.model.theory.algebras = {}) (hplain : c.model.Has c.model.theory.plainShape)
  (hconditions : ∀ r ∈ c.model.rules, ∀ f, r.restrict = some f → f.QuantifierFree)

include hc hequations halgebras hplain hconditions

/-- In a compiled model without algebraic operators and destructors, a search that is exhausted has
missed no trace: none that respects the sorts satisfies the target. So a property of all traces that
is proven has no counterexample, and one of some trace that is falsified has no witness. -/
theorem exhausted_search_refutes :
    (∀ (f : Formula) (target : Nnf) (tactic : Option Tactic) (budget : Budget) (host : Search.Host),
      f.toNnf = .ok target → (∀ b ∈ f.binders, b.idx = 0) → target.Has c.model.theory.plainShape →
      (search ⟨c.model, target, tactic, budget, host⟩).outcome = .exhausted →
        ∀ tr : Trace, tr.RespectsSorts c.model → ¬c.model.Satisfies target tr) ∧
    ∀ (name : String) (kind : LemmaKind) (f : Formula) (tactic : Option String) (l : Lemma)
      (budget : Budget) (host : Search.Host) (v : Verdict), Lemma.build name kind f tactic = .ok l →
      (∀ b ∈ f.binders, b.idx = 0) → l.target.Has c.model.theory.plainShape →
      evaluate c.model l budget host = .ok v →
      (kind = .allTraces ∧ (∃ w, v = .proven w) ∨ kind = .existsTrace ∧ ∃ w, v = .falsified w) →
        ∀ tr : Trace, tr.RespectsSorts c.model → ¬c.model.Satisfies l.target tr := by
  have hm := Surface.Model.plain_of_compile hc hequations halgebras hplain hconditions
  refine ⟨fun f target tactic budget host hf hbinders htarget h tr htr =>
    Search.not_satisfies_of_exhausted hm (Formula.in_toNnf hf hbinders htarget) h htr,
    fun name kind f tactic l budget host v hl hbinders htarget hv hverdict tr htr => ?_⟩
  obtain ⟨tactic', rfl⟩ := evaluate_eq_ok hv
  obtain ⟨rfl, -, hnnf⟩ := Lemma.build_target hl
  have hexhausted := Verdict.exhausted_of_ofSearch hverdict
  have ht : l.target.In .indexed c.model.theory .closed := by
    cases hkind : l.kind <;> rw [hkind] at hnnf <;> exact Formula.in_toNnf hnnf hbinders htarget
  exact Search.not_satisfies_of_exhausted hm ht hexhausted htr

/-- In such a model it never happens that one tactic and budget give a trace and others exhaust the
search. -/
theorem searches_agree (f : Formula) (target : Nnf) (hf : f.toNnf = .ok target)
    (hbinders : ∀ b ∈ f.binders, b.idx = 0) (htarget : target.Has c.model.theory.plainShape)
    (tactic tactic' : Option Tactic) (budget budget' : Budget) (host host' : Search.Host)
    (tr : Trace) : ¬((search ⟨c.model, target, tactic, budget, host⟩).outcome = .witness tr ∧
      (search ⟨c.model, target, tactic', budget', host'⟩).outcome = .exhausted) := by
  rintro ⟨h, h'⟩
  have hm := Surface.Model.plain_of_compile hc hequations halgebras hplain hconditions
  have ht : target.In .indexed c.model.theory .closed := Formula.in_toNnf hf hbinders htarget
  have hsorts : tr.RespectsSorts c.model :=
    Search.respectsSorts_of_witness (t := ⟨c.model, target, tactic, budget, host⟩) hm ht h
  exact Search.not_satisfies_of_exhausted hm ht h' hsorts
    (Search.verifies_iff.1 (Search.witness_verified h).1)

end Compiled

/-- The adversary learns a key only after it was sent. -/
def sentFirst : Lemma :=
  let bs : List Binder := [.msg (.msg "x"), .time (.ofName "i"), .time (.ofName "j")]
  let sent : Atom := .action (.linear "Sent" [.var (.msg "x")]) (.ofName "i")
  let known : Atom := .action (.linear Pred.knows [.var (.msg "x")]) (.ofName "j")
  { name := "sent first"
    kind := .allTraces
    formula := .all bs (.imp (.conj [.atom sent, .atom known])
      (.atom (.less (.ofName "i") (.ofName "j"))))
    tactic := none
    target := .ex bs (.conj [.conj [.atom sent, .atom known],
      .disj [.atom (.less (.ofName "j") (.ofName "i")),
        .atom (.timeEq (.ofName "i") (.ofName "j"))]]) }

theorem has_sentFirst {P : Shape} (hP : ∀ x, P.var x) : sentFirst.target.Has P := by
  have hterms : ∀ t ∈ sentFirst.target.terms, t = .var (.msg "x") := by decide
  exact fun t ht => hterms t ht ▸ .var (hP _)

theorem exhausted_sentFirst :
    (search ⟨relayModel, sentFirst.target, none, {}, {}⟩).outcome = .exhausted := by
  decide +kernel

theorem exhausted_search_refutes_sentFirst :
    relaySource.compile ∅ = .ok ⟨relayModel, []⟩ ∧
    Lemma.build "sent first" .allTraces sentFirst.formula none = .ok sentFirst ∧
    (search ⟨relayModel, sentFirst.target, none, {}, {}⟩).outcome = .exhausted ∧
    evaluate relayModel sentFirst {} = .ok (.proven none) ∧
    ∀ tr : Trace, tr.RespectsSorts relayModel → ¬relayModel.Satisfies sentFirst.target tr := by
  have hv : evaluate relayModel sentFirst {} = .ok (.proven none) := by
    change Except.ok (Verdict.ofSearch .allTraces
      (search ⟨relayModel, sentFirst.target, none, {}, {}⟩)) = _
    simp only [Verdict.ofSearch, exhausted_sentFirst]
  have hc : relaySource.compile ∅ = .ok ⟨relayModel, []⟩ := rfl
  have hbuild : Lemma.build "sent first" .allTraces sentFirst.formula none = .ok sentFirst := rfl
  obtain ⟨-, hverdict⟩ := exhausted_search_refutes hc rfl rfl
    (Model.has_of_head? (fun _ => trivial) (fun _ => trivial) (by decide) rfl)
    (by simp [relayModel, Rule.learn])
  exact ⟨hc, hbuild, exhausted_sentFirst, hv, hverdict _ _ _ _ _ _ _ _ hbuild (by decide)
    (has_sentFirst fun _ => trivial) hv (.inl ⟨rfl, none, rfl⟩)⟩

theorem searches_agree_sentFirst :
    (search ⟨relayModel, sentFirst.target, none, {}, {}⟩).outcome = .exhausted ∧
    ∀ tactic budget host tr,
      (search ⟨relayModel, sentFirst.target, tactic, budget, host⟩).outcome ≠ .witness tr := by
  refine ⟨exhausted_sentFirst, fun tactic budget host tr h => ?_⟩
  exact searches_agree (c := ⟨relayModel, []⟩) (rfl : relaySource.compile ∅ = _) rfl rfl
    (Model.has_of_head? (fun _ => trivial) (fun _ => trivial) (by decide) rfl)
    (by simp [relayModel, Rule.learn]) (.neg sentFirst.formula) _ rfl (by decide)
    (has_sentFirst fun _ => trivial) _ _ _ _ _ _ _ ⟨h, exhausted_sentFirst⟩

/-! ## Messages with destructors -/

/-- A secret is stored in a pair of pairs, and the first part of what is stored is sent. -/
def storeSource : Surface.Model where
  name := "store"
  rules :=
    [{ name := "Store", premises := [⟨"Fr", false, [⟨"~s", []⟩]⟩],
       actions := [⟨"Secret", false, [⟨"~s", []⟩]⟩],
       conclusions := [⟨"St", false, [⟨"pair", [⟨"pair", [⟨"~s", []⟩, ⟨"\x27a\x27", []⟩]⟩,
         ⟨"\x27b\x27", []⟩]⟩]⟩] },
     { name := "Open", premises := [⟨"St", false, [⟨"x", []⟩]⟩],
       conclusions := [⟨"Out", false, [⟨"fst", [⟨"x", []⟩]⟩]⟩] }]

def storeModel : Model where
  theory := ⟨.builtin, {}, Reduction.projections⟩
  rules :=
    [⟨"Store", .protocol, [.linear Pred.fresh [.var (.fresh "s")]],
        [.linear "Secret" [.var (.fresh "s")]],
        [.linear "St" [.pair (.pair (.var (.fresh "s")) (.pubName "a")) (.pubName "b")]], none,
        [.fresh "s"]⟩,
      ⟨"Open", .protocol, [.linear "St" [.var (.msg "x")]], [],
        [.linear Pred.output [.app .fst [.var (.msg "x")]]], none, [.msg "x"]⟩, .learn]
  restrictions := []
  lemmas := []
  tactics := []
  learnRule := 2

/-- The adversary learns a secret. -/
def leakFormula : Formula :=
  .ex [.msg (.msg "x"), .time (.ofName "i"), .time (.ofName "j")]
    (.conj [.atom (.action (.linear "Secret" [.var (.msg "x")]) (.ofName "i")),
      .atom (.action (.linear Pred.knows [.var (.msg "x")]) (.ofName "j"))])

def leakTarget : Nnf :=
  .ex [.msg (.msg "x"), .time (.ofName "i"), .time (.ofName "j")]
    (.conj [.atom (.action (.linear "Secret" [.var (.msg "x")]) (.ofName "i")),
      .atom (.action (.linear Pred.knows [.var (.msg "x")]) (.ofName "j"))])

def leakTrace : Trace :=
  let s : Term := .name (.fresh "s" 2)
  let stored : Term := .pair (.pair s (.pubName "a")) (.pubName "b")
  [⟨"Store", [(.fresh "s", s)], [.linear Pred.fresh [s]], [.linear "Secret" [s]],
      [.linear "St" [stored]]⟩,
    ⟨"Open", [(.msg "x", stored)], [.linear "St" [stored]], [],
      [.linear Pred.output [.pair s (.pubName "a")]]⟩,
    ⟨"Learn", [(.msg "x", s)], [.linear Pred.input [s]], [.linear Pred.knows [s]], []⟩]

theorem exhausted_leak :
    (search ⟨storeModel, leakTarget, none, {}, {}⟩).outcome = .exhausted := by
  decide +kernel

/-- What the first part of a variable becomes is not taken apart, so a search misses the trace in
which the secret is learned. -/
theorem exhausted_search_misses_leak :
    storeSource.compile ∅ = .ok ⟨storeModel, []⟩ ∧ leakFormula.toNnf = .ok leakTarget ∧
    (search ⟨storeModel, leakTarget, none, {}, {}⟩).outcome = .exhausted ∧
    leakTrace.RespectsSorts storeModel ∧ storeModel.Satisfies leakTarget leakTrace :=
  ⟨rfl, rfl, exhausted_leak, by decide +kernel, (Search.verifies_iff
    (t := ⟨storeModel, leakTarget, none, {}, {}⟩)).1 (by decide +kernel)⟩

/-- A search that solves premises first knows what is opened, and finds the trace. -/
theorem searches_disagree_on_leak :
    storeSource.compile ∅ = .ok ⟨storeModel, []⟩ ∧ leakFormula.toNnf = .ok leakTarget ∧
    (search ⟨storeModel, leakTarget, none, {}, {}⟩).outcome = .exhausted ∧
    (search ⟨storeModel, leakTarget, some { name := "facts", prefer := [{ kind := some .premise }] },
      {}, {}⟩).outcome = .witness leakTrace := by
  refine ⟨rfl, rfl, exhausted_leak, ?_⟩
  decide +kernel

end ProtocolProver
