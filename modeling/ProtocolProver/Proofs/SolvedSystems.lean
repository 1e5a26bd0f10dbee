import ProtocolProver.Proofs.CompiledModels

/-!
# Solved systems have a fact flow that can be realized

A search reaches a solved system from the initial one by solving goals in any order. If the equations
of the model come from packs and the target respects arities and holds no fresh values, then the trace
of a solved system replays, up to what the adversary can derive and conditions of rules
(`realize_replays_up_to_knowledge`). A fresh value in the target can be taken for one that is drawn
later, and `one` with arguments is dropped from products although it is not the unit, so that normal
forms are not stable under substitution (`realize_fails_beyond_written_terms`).
-/

namespace ProtocolProver

/-! ## The first ways -/

namespace System

/-- The first way to meet the first goal. -/
def advance (m : Model) (S : System) : System := (S.expand m 0).systems.headD S

/-- The first of the systems that a search starts from. -/
def start (m : Model) (target : Nnf) : System :=
  ((initial m target).simplify m).systems.headD {}

theorem headD_mem {α : Type} {l : List α} {a : α} (h : l.isEmpty = false) : l.headD a ∈ l := by
  cases l with
  | nil => cases h
  | cons b l => exact List.mem_cons_self ..

theorem reachable_advance {m : Model} {target : Nnf}
    (hstart : ((initial m target).simplify m).systems.isEmpty = false) : ∀ n,
      (∀ i < n, (((advance m)^[i] (start m target)).expand m 0).systems.isEmpty = false) →
        Reachable m target ((advance m)^[n] (start m target))
  | 0, _ => .start (headD_mem hstart)
  | n + 1, h => by
    rw [Function.iterate_succ_apply']
    exact .expand 0 (reachable_advance hstart n fun i hi => h i (Nat.lt_succ_of_lt hi))
      (headD_mem (h n (Nat.lt_succ_self n)))

end System

/-! ## Solved systems -/

/-- The trace of a solved system replays, unless the adversary cannot derive an input or the condition
of a rule fails: no fact is missing, no fresh value is used twice, and the recorded facts are right. -/
theorem realize_replays_up_to_knowledge {src : Surface.Model} {flags : SortedSet String}
    {c : Surface.Compiled} (hc : src.compile flags = .ok c) (hequations : src.equations = [])
    (hlearn : ∀ r ∈ c.model.rules.dropLast, r.name ≠ Rule.learnName) {target : Nnf}
    (ht : target.Has c.model.theory.publicShape) {S : System}
    (hS : System.Reachable c.model target S) (hsolved : S.isSolved = true) :
    (∃ states, replay c.model (S.realize c.model) = .ok states) ∨
      ∃ i rule, (∃ k, replay c.model (S.realize c.model) = .error (.fire i rule (.underivable k))) ∨
        replay c.model (S.realize c.model) = .error (.fire i rule .restricted) := by
  obtain ⟨pack, sig, es, rs, hcompiles⟩ := Surface.Model.compiles hc
  have hes := hcompiles.equations
  rw [hequations] at hes
  cases hes
  have hchecked : c.model.Checked := hcompiles.checked fun r hr => hlearn r (by
    rw [hcompiles.rules, List.dropLast_concat]
    exact hr)
  obtain ⟨hcoherent, hsettled⟩ := hS.coherent_settled hcompiles.regular ht
  cases hr : replay c.model (S.realize c.model) with
  | ok states => exact .inl ⟨states, rfl⟩
  | error e =>
    obtain ⟨i, rule, ⟨k, rfl⟩ | rfl⟩ :=
      hcoherent.replay_realize hcompiles.regular hchecked (fun _ _ h => by cases h) hsettled hsolved hr
    · exact .inr ⟨i, rule, .inl ⟨k, rfl⟩⟩
    · exact .inr ⟨i, rule, .inr rfl⟩

/-- One rule makes a key and another one sends it. -/
def relaySource : Surface.Model where
  name := "relay"
  rules :=
    [{ name := "Make", premises := [⟨"Fr", false, [⟨"~k", []⟩]⟩],
       conclusions := [⟨"Key", false, [⟨"~k", []⟩]⟩] },
     { name := "Send", premises := [⟨"Key", false, [⟨"k", []⟩]⟩],
       actions := [⟨"Sent", false, [⟨"k", []⟩]⟩], conclusions := [⟨"Out", false, [⟨"k", []⟩]⟩] }]

def relayModel : Model where
  theory := ⟨.builtin, {}, Reduction.projections⟩
  rules :=
    [⟨"Make", .protocol, [.linear Pred.fresh [.var (.fresh "k")]], [],
        [.linear "Key" [.var (.fresh "k")]], none, [.fresh "k"]⟩,
      ⟨"Send", .protocol, [.linear "Key" [.var (.msg "k")]], [.linear "Sent" [.var (.msg "k")]],
        [.linear Pred.output [.var (.msg "k")]], none, [.msg "k"]⟩, .learn]
  restrictions := []
  lemmas := []
  tactics := []
  learnRule := 2

/-- Some key is sent. -/
def relayTarget : Nnf :=
  .ex [.msg (.msg "x"), .time (.ofName "i")]
    (.atom (.action (.linear "Sent" [.var (.msg "x")]) (.ofName "i")))

/-- A key is made before it is sent. -/
theorem realize_replays_relay :
    let S := (System.advance relayModel)^[4] (System.start relayModel relayTarget)
    relaySource.compile ∅ = .ok ⟨relayModel, []⟩ ∧
      System.Reachable relayModel relayTarget S ∧ S.isSolved = true ∧
      (S.realize relayModel).map Step.rule = ["Make", "Send"] ∧
      ((∃ states, replay relayModel (S.realize relayModel) = .ok states) ∨
        ∃ i rule, (∃ k, replay relayModel (S.realize relayModel) =
            .error (.fire i rule (.underivable k))) ∨
          replay relayModel (S.realize relayModel) = .error (.fire i rule .restricted)) := by
  intro S
  have hcompile : relaySource.compile ∅ = .ok ⟨relayModel, []⟩ := rfl
  have hS : System.Reachable relayModel relayTarget S :=
    System.reachable_advance (by decide +kernel) 4 (by decide +kernel)
  have hsolved : S.isSolved = true := by decide +kernel
  have ht : relayTarget.Has relayModel.theory.publicShape :=
    List.forall_mem_singleton.2 (.var trivial)
  exact ⟨hcompile, hS, hsolved, by decide +kernel,
    realize_replays_up_to_knowledge hcompile rfl (by decide) ht hS hsolved⟩

/-! ## Targets beyond written terms -/

/-- One rule makes a value. -/
def genSource : Surface.Model where
  name := "gen"
  rules := [{ name := "Gen", premises := [⟨"Fr", false, [⟨"~n", []⟩]⟩],
              actions := [⟨"Made", false, [⟨"~n", []⟩]⟩] }]

/-- A given fresh value is made, and then another one. -/
def genFormula : Formula :=
  .ex [.msg (.msg "x"), .time (.ofName "i"), .time (.ofName "j")]
    (.conj [.atom (.action (.linear "Made" [.name (.fresh "n" 3)]) (.ofName "i")),
      .atom (.action (.linear "Made" [.var (.msg "x")]) (.ofName "j")),
      .atom (.less (.ofName "i") (.ofName "j"))])

/-- One rule multiplies what it reads. -/
def timesSource : Surface.Model where
  name := "times"
  builtins := ["diffie-hellman"]
  rules := [{ name := "Times", premises := [⟨"In", false, [⟨"x", []⟩]⟩, ⟨"In", false, [⟨"y", []⟩]⟩],
              actions := [⟨"First", false, [⟨"x", []⟩]⟩, ⟨"Second", false, [⟨"y", []⟩]⟩],
              conclusions := [⟨"Out", false, [⟨"mult", [⟨"x", []⟩, ⟨"y", []⟩]⟩]⟩] }]

/-- The rule reads the unit twice, written with an argument. -/
def timesFormula : Formula :=
  let unit : Term := .app .one [.pubName "s"]
  .ex [.time (.ofName "i")] (.conj [.atom (.action (.linear "First" [unit]) (.ofName "i")),
    .atom (.action (.linear "Second" [unit]) (.ofName "i"))])

/-- A search for what the formula says reaches a solved system whose trace fails to replay. -/
def FailsToReplay (src : Surface.Model) (f : Formula) (e : ReplayError) : Prop :=
  ∃ c target S, src.compile ∅ = .ok c ∧ f.toNnf = .ok target ∧ System.Reachable c.model target S ∧
    S.isSolved = true ∧ replay c.model (S.realize c.model) = .error e

/-- A fresh value in the target is drawn once more for an open variable. If `one` has an argument, then
its product with `y` is `y`, and `one` with the argument once `y` is known to be this. The product of
both that is computed again is `one` without arguments. -/
theorem realize_fails_beyond_written_terms :
    FailsToReplay genSource genFormula (.fire 1 "Gen" (.freshReused 0)) ∧
      FailsToReplay timesSource timesFormula (.mismatch 0 "Times") := by
  have failure : ∀ {m : Model} {trace : Trace} {e : ReplayError},
      (match replay m trace with
        | .ok _ => false
        | .error e' => e' == e) = true → replay m trace = .error e := by
    intro m trace e h
    cases hr : replay m trace with
    | ok states => rw [hr] at h; cases h
    | error e' => rw [hr] at h; rw [beq_iff_eq.1 h]
  exact ⟨⟨_, _, _, rfl, rfl, System.reachable_advance (by decide +kernel) 7 (by decide +kernel),
      by decide +kernel, failure (by decide +kernel)⟩,
    _, _, _, rfl, rfl, System.reachable_advance (by decide +kernel) 7 (by decide +kernel),
      by decide +kernel, failure (by decide +kernel)⟩

end ProtocolProver
