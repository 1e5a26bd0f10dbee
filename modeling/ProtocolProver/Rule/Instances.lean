import ProtocolProver.Rule.Firing

/-!
# The enabled instances of rules

`enabledInstances` lists the instances of the protocol and channel rules that can fire in a state.
Stored facts are matched first, then fresh values are drawn, then inputs are matched with what the
adversary knows or can build.
-/

namespace ProtocolProver

/-- Drops elements that are equal to the one before. -/
def dropRepeats {α : Type} [DecidableEq α] : List α → List α
  | [] => []
  | a :: as => a :: go a as
where
  go (last : α) : List α → List α
    | [] => []
    | b :: bs => if b = last then go last bs else b :: go b bs

/-- How deep an input pattern is taken apart at its free symbols. -/
def maxInputDepth : Nat := 4096

/-- The extensions of `σ` under which the adversary can produce the input pattern `t`: the pattern
is made equal to a known term, or its parts can be produced. -/
def matchKnown (T : Theory) (K : Knowledge) : Nat → Term → Subst → StateM VarSupply (List Subst)
  | 0, _, _ => pure []
  | n + 1, t, σ => do
    let t := T.normalize (σ.apply t)
    if t.isGround then return if K.derives T t then [σ] else []
    let known ← K.toList.mapM fun u => do
      if t.isVar && !t.sort.admits u.sort then return []
      return (← T.unify [(t, u)] σ).substs
    let built ← match t with
      | .app f as =>
        if T.signature.isPublic f && !T.isDestructor f && !T.isAlgebraic f then
          as.foldlM (fun τs a => do
            return (← τs.mapM fun τ => matchKnown T K n a τ).flatten) [σ]
        else pure []
      | _ => pure []
    return (known.flatten ++ built).eraseDups

/-- When a premise is matched: stored facts, then fresh values, then inputs. -/
def Fact.matchOrder (f : Fact) : Nat :=
  if f.pred = Pred.input then 2 else if f.pred = Pred.fresh then 1 else 0

/-- Premises in the order in which they are matched. -/
def orderPremises (fs : List Fact) : List Fact :=
  fs.filter (·.matchOrder = 0) ++ fs.filter (·.matchOrder = 1) ++ fs.filter (·.matchOrder = 2)

/-- Partial instances of a rule and the index of the next fresh value. -/
structure Matches where
  substs : List Subst
  nextFresh : Nat

/-- Extends partial instances by one premise. -/
def Matches.premise (T : Theory) (s : State) (m : Matches) (f : Fact) :
    StateM VarSupply Matches := do
  if f.pred = Pred.fresh then
    match f.args.head? with
    | some (.var v) =>
      let value : Term := .name (.fresh v.name m.nextFresh)
      return ⟨dropRepeats (m.substs.map fun σ => σ.insert v value), m.nextFresh + 1⟩
    | _ => return ⟨[], m.nextFresh⟩
  else if f.pred = Pred.input then
    let found ← m.substs.mapM fun σ =>
      f.args.foldlM (fun τs t => do
        return (← τs.mapM fun τ => matchKnown T s.knowledge maxInputDepth t τ).flatten) [σ]
    return { m with substs := dropRepeats found.flatten }
  else
    let found ← m.substs.mapM fun σ => s.facts.matchPattern T f σ
    return { m with substs := dropRepeats (found.flatten.map (·.1)) }

/-- Public variables that no premise binds stand for their own name. -/
def bindPublic (vars : List Var) (σ : Subst) : Subst :=
  vars.foldl (fun σ v =>
    if v.sort = .pub ∧ !σ.contains v then σ.insert v (.pubName v.name) else σ) σ

/-- The enabled instances of one rule. -/
def Rule.instances (r : Rule) (T : Theory) (s : State) : List Firing :=
  let (found, _) := (orderPremises r.premises).foldlM (Matches.premise T s) ⟨[∅], s.nextFresh⟩
    |>.run {}
  found.substs.filterMap fun σ =>
    match fire T s r (bindPublic r.vars σ) with
    | .ok f => some { f with state := { f.state with nextFresh := found.nextFresh } }
    | .error _ => none

/-- The enabled instances of all protocol and channel rules, in declaration order. -/
def enabledInstances (m : Model) (s : State) : List Firing :=
  (m.rules.filter fun r => r.kind != .adversary).flatMap fun r => r.instances m.theory s

end ProtocolProver
