import ProtocolProver.Fact

/-!
# Temporal formulas and their negation normal form

Formulas speak about the actions of a trace, the order of its timepoints and the equality of terms.
The search works on the negation normal form `Nnf`: negation is left only in disequalities of terms,
and universal quantifiers only in the guarded form `All x. actions ==> body`, in which an action
binds every variable. `Formula.toNnf` gives the form of a closed formula, or the reason why it has
none.
-/

namespace ProtocolProver

/-- A timepoint variable. Formulas use index 0; the timepoints of a constraint system are renamed
apart. -/
structure TimeVar where
  name : String
  idx : Nat
deriving DecidableEq, Repr

namespace TimeVar

def ofName (name : String) : TimeVar := ⟨name, 0⟩

def cmp (i j : TimeVar) : Ordering := (compare i.name j.name).then (compare i.idx j.idx)

instance : Ord TimeVar := ⟨cmp⟩

instance : Std.TransOrd TimeVar :=
  inferInstanceAs (Std.TransCmp (compareLex (compareOn TimeVar.name) (compareOn TimeVar.idx)))

theorem cmp_eq_iff {i j : TimeVar} : cmp i j = .eq ↔ i = j := by
  cases i; cases j
  simp [cmp]

instance : Std.LawfulEqOrd TimeVar := lawfulEqCmp_of_iff cmp_eq_iff

end TimeVar

/-- What a quantifier binds. -/
inductive Binder where
  | msg (v : Var)
  | time (i : TimeVar)
deriving DecidableEq

inductive Atom where
  /-- The step at `i` emits `fact`. -/
  | action (fact : Fact) (i : TimeVar)
  /-- The adversary knows `t` at `i`. -/
  | knows (t : Term) (i : TimeVar)
  | less (i j : TimeVar)
  | timeEq (i j : TimeVar)
  | eq (s t : Term)
deriving DecidableEq

/-- A first-order formula over actions, timepoints and terms. -/
inductive Formula where
  | top
  | bot
  | atom (a : Atom)
  | neg (f : Formula)
  | conj (fs : List Formula)
  | disj (fs : List Formula)
  | imp (f g : Formula)
  | ex (bs : List Binder) (f : Formula)
  | all (bs : List Binder) (f : Formula)

/-- Negation normal form with guarded universal quantifiers. -/
inductive Nnf where
  | top
  | bot
  | atom (a : Atom)
  | neq (s t : Term)
  | conj (fs : List Nnf)
  | disj (fs : List Nnf)
  | ex (bs : List Binder) (f : Nnf)
  | guarded (bs : List Binder) (guard : List Atom) (body : Nnf)

/-- A guarded universal `All binders. guard ==> body`. -/
structure Guarded where
  binders : List Binder
  guard : List Atom
  body : Nnf

def Guarded.toNnf (g : Guarded) : Nnf := .guarded g.binders g.guard g.body

/-! ## Equality and hashing of normal forms -/

namespace Nnf

instance : Inhabited Nnf := ⟨.top⟩

mutual

def beq : Nnf → Nnf → Bool
  | .top, .top => true
  | .bot, .bot => true
  | .atom a, .atom b => a == b
  | .neq s t, .neq s' t' => s == s' && t == t'
  | .conj fs, .conj gs => beqList fs gs
  | .disj fs, .disj gs => beqList fs gs
  | .ex bs f, .ex cs g => bs == cs && beq f g
  | .guarded bs gs f, .guarded cs hs g => bs == cs && (gs == hs && beq f g)
  | _, _ => false

def beqList : List Nnf → List Nnf → Bool
  | [], [] => true
  | f :: fs, g :: gs => beq f g && beqList fs gs
  | _, _ => false

end

mutual

theorem eq_of_beq : ∀ {f g : Nnf}, beq f g = true → f = g
  | .top, .top, _ => rfl
  | .bot, .bot, _ => rfl
  | .atom a, .atom b, h => by simpa [beq] using h
  | .neq .., .neq .., h => by simpa [beq] using h
  | .conj _, .conj _, h => by simp only [beq] at h; rw [eq_of_beqList h]
  | .disj _, .disj _, h => by simp only [beq] at h; rw [eq_of_beqList h]
  | .ex .., .ex .., h => by
    simp only [beq, Bool.and_eq_true, beq_iff_eq] at h
    rw [h.1, eq_of_beq h.2]
  | .guarded .., .guarded .., h => by
    simp only [beq, Bool.and_eq_true, beq_iff_eq] at h
    rw [h.1, h.2.1, eq_of_beq h.2.2]
  | .top, .bot, h | .top, .atom _, h | .top, .neq .., h | .top, .conj _, h | .top, .disj _, h
  | .top, .ex .., h | .top, .guarded .., h => by simp [beq] at h
  | .bot, .top, h | .bot, .atom _, h | .bot, .neq .., h | .bot, .conj _, h | .bot, .disj _, h
  | .bot, .ex .., h | .bot, .guarded .., h => by simp [beq] at h
  | .atom _, .top, h | .atom _, .bot, h | .atom _, .neq .., h | .atom _, .conj _, h
  | .atom _, .disj _, h | .atom _, .ex .., h | .atom _, .guarded .., h => by simp [beq] at h
  | .neq .., .top, h | .neq .., .bot, h | .neq .., .atom _, h | .neq .., .conj _, h
  | .neq .., .disj _, h | .neq .., .ex .., h | .neq .., .guarded .., h => by simp [beq] at h
  | .conj _, .top, h | .conj _, .bot, h | .conj _, .atom _, h | .conj _, .neq .., h
  | .conj _, .disj _, h | .conj _, .ex .., h | .conj _, .guarded .., h => by simp [beq] at h
  | .disj _, .top, h | .disj _, .bot, h | .disj _, .atom _, h | .disj _, .neq .., h
  | .disj _, .conj _, h | .disj _, .ex .., h | .disj _, .guarded .., h => by simp [beq] at h
  | .ex .., .top, h | .ex .., .bot, h | .ex .., .atom _, h | .ex .., .neq .., h
  | .ex .., .conj _, h | .ex .., .disj _, h | .ex .., .guarded .., h => by simp [beq] at h
  | .guarded .., .top, h | .guarded .., .bot, h | .guarded .., .atom _, h
  | .guarded .., .neq .., h | .guarded .., .conj _, h | .guarded .., .disj _, h
  | .guarded .., .ex .., h => by simp [beq] at h

theorem eq_of_beqList : ∀ {fs gs : List Nnf}, beqList fs gs = true → fs = gs
  | [], [], _ => rfl
  | _ :: _, _ :: _, h => by
    simp only [beqList, Bool.and_eq_true] at h
    rw [eq_of_beq h.1, eq_of_beqList h.2]
  | [], _ :: _, h => by simp [beqList] at h
  | _ :: _, [], h => by simp [beqList] at h

end

mutual

theorem beq_self : ∀ f : Nnf, beq f f = true
  | .top => rfl
  | .bot => rfl
  | .atom _ => by simp [beq]
  | .neq .. => by simp [beq]
  | .conj fs => by simp [beq, beqList_self fs]
  | .disj fs => by simp [beq, beqList_self fs]
  | .ex _ f => by simp [beq, beq_self f]
  | .guarded _ _ f => by simp [beq, beq_self f]

theorem beqList_self : ∀ fs : List Nnf, beqList fs fs = true
  | [] => rfl
  | f :: fs => by simp [beqList, beq_self f, beqList_self fs]

end

instance : DecidableEq Nnf := fun f g =>
  if h : beq f g = true then isTrue (eq_of_beq h)
  else isFalse fun e => h (e ▸ beq_self f)

end Nnf

deriving instance DecidableEq for Guarded

/-! ## Atoms -/

namespace Atom

/-- Knowledge is an action of the rule by which the adversary learns. -/
def action? : Atom → Option (Fact × TimeVar)
  | .action f i => some (f, i)
  | .knows t i => some (.linear Pred.knows [t], i)
  | _ => none

def terms : Atom → List Term
  | .action f _ => f.args
  | .knows t _ => [t]
  | .eq s t => [s, t]
  | _ => []

def times : Atom → List TimeVar
  | .action _ i => [i]
  | .knows _ i => [i]
  | .less i j => [i, j]
  | .timeEq i j => [i, j]
  | .eq .. => []

def map (terms : Term → Term) (times : TimeVar → TimeVar) : Atom → Atom
  | .action f i => .action (f.mapTerms terms) (times i)
  | .knows t i => .knows (terms t) (times i)
  | .less i j => .less (times i) (times j)
  | .timeEq i j => .timeEq (times i) (times j)
  | .eq s t => .eq (terms s) (terms t)

def negate (a : Atom) : Except FormulaError Nnf :=
  match a with
  | .action .. => .ok (.guarded [] [a] .bot)
  | .knows .. => .error .negatedKnowledge
  | .less i j => .ok (.disj [.atom (.less j i), .atom (.timeEq i j)])
  | .timeEq i j => .ok (.disj [.atom (.less i j), .atom (.less j i)])
  | .eq s t => .ok (.neq s t)

end Atom

/-! ## Free variables -/

def Binder.var? : Binder → Option Var
  | .msg v => some v
  | .time _ => none

namespace Formula

mutual

/-- Every free occurrence of a term variable. -/
def freeOccurrences : Formula → List Var
  | .top | .bot => []
  | .atom a => Term.occurrencesList a.terms
  | .neg f => freeOccurrences f
  | .conj fs => freeOccurrencesList fs
  | .disj fs => freeOccurrencesList fs
  | .imp f g => freeOccurrences f ++ freeOccurrences g
  | .ex bs f => (freeOccurrences f).filter fun v => !bs.contains (.msg v)
  | .all bs f => (freeOccurrences f).filter fun v => !bs.contains (.msg v)

def freeOccurrencesList : List Formula → List Var
  | [] => []
  | f :: fs => freeOccurrences f ++ freeOccurrencesList fs

end

mutual

def timeOccurrences : Formula → List TimeVar
  | .top | .bot => []
  | .atom a => a.times
  | .neg f => timeOccurrences f
  | .conj fs => timeOccurrencesList fs
  | .disj fs => timeOccurrencesList fs
  | .imp f g => timeOccurrences f ++ timeOccurrences g
  | .ex bs f => (timeOccurrences f).filter fun i => !bs.contains (.time i)
  | .all bs f => (timeOccurrences f).filter fun i => !bs.contains (.time i)

def timeOccurrencesList : List Formula → List TimeVar
  | [] => []
  | f :: fs => timeOccurrences f ++ timeOccurrencesList fs

end

/-- The free term variables in order of first occurrence. -/
def freeVars (f : Formula) : List Var := f.freeOccurrences.eraseDups

def freeTimes (f : Formula) : List TimeVar := f.timeOccurrences.eraseDups

/-! ## Negation normal form -/

mutual

/-- The parts of a conjunction, taken apart as far as possible. -/
def conjuncts : Formula → List Formula
  | .conj fs => conjunctsList fs
  | .top => []
  | f => [f]

def conjunctsList : List Formula → List Formula
  | [] => []
  | f :: fs => conjuncts f ++ conjunctsList fs

end

def atom? : Formula → Option Atom
  | .atom a => some a
  | _ => none

/-- Reads a conjunct as an atom of a guard. -/
def guardAtom : Formula → Except FormulaError Atom
  | .atom (.knows ..) => .error .knowledgeInGuard
  | .atom a => .ok a
  | _ => .error .guardShape

/-- Checks that an action of the guard holds a binder. -/
def checkGuarded (guard : List Atom) (b : Binder) : Except FormulaError Unit :=
  let actions := guard.filterMap fun a => match a with
    | .action f i => some (f, i)
    | _ => none
  match b with
  | .msg v =>
    if actions.any fun (f, _) => f.args.any (·.occurs v) then .ok ()
    else .error (.unguarded v.name)
  | .time i =>
    if actions.any fun (_, j) => j == i then .ok () else .error (.unguarded ("#" ++ i.name))

/-- The guarded universal over a guard, given by its conjuncts, and a body. -/
def mkGuarded (bs : List Binder) (parts : List Formula) (body : Nnf) : Except FormulaError Nnf := do
  let guard ← parts.mapM guardAtom
  bs.forM (checkGuarded guard)
  return .guarded bs guard body

/-- The normal forms of a formula in each of its possible places. -/
structure Forms where
  /-- The formula itself. -/
  pos : Except FormulaError Nnf
  /-- Its negation. -/
  neg : Except FormulaError Nnf
  /-- The negations of those of its conjuncts that are not atoms. -/
  parts : Except FormulaError (List Nnf)
  /-- The universal quantification of the formula. -/
  all : List Binder → Except FormulaError Nnf

/-- The universal quantification of the negation of `f`: the atoms among its conjuncts are the
guard, the others give the body. -/
def forbid (bs : List Binder) (f : Formula) (forms : Forms) : Except FormulaError Nnf := do
  let body ← match ← forms.parts with
    | [] => pure Nnf.bot
    | parts => pure (.disj parts)
  mkGuarded bs (f.conjuncts.filter fun p => p.atom?.isSome) body

mutual

def forms : Formula → Forms
  | .top => ⟨.ok .top, .ok .bot, .ok [], fun _ => .error .guardShape⟩
  | .bot => ⟨.ok .bot, .ok .top, .ok [.top], fun _ => .error .guardShape⟩
  | .atom a => ⟨.ok (.atom a), a.negate, .ok [], fun _ => .error .guardShape⟩
  | .neg f =>
    let r := forms f
    ⟨r.neg, r.pos, (fun n => [n]) <$> r.pos, fun bs => forbid bs f r⟩
  | .conj fs =>
    let rs := formsList fs
    ⟨.conj <$> rs.mapM Forms.pos, .disj <$> rs.mapM Forms.neg,
      List.flatten <$> rs.mapM Forms.parts, fun _ => .error .guardShape⟩
  | .disj fs =>
    let rs := formsList fs
    let neg := Nnf.conj <$> rs.mapM Forms.neg
    ⟨.disj <$> rs.mapM Forms.pos, neg, (fun n => [n]) <$> neg, fun _ => .error .guardShape⟩
  | .imp f g =>
    let r := forms f
    let s := forms g
    let neg := do return Nnf.conj [← r.pos, ← s.neg]
    ⟨do return .disj [← r.neg, ← s.pos], neg, (fun n => [n]) <$> neg,
      fun bs => do mkGuarded bs f.conjuncts (← s.pos)⟩
  | .ex bs f =>
    let r := forms f
    let neg := forbid bs f r
    ⟨.ex bs <$> r.pos, neg, (fun n => [n]) <$> neg, fun _ => .error .guardShape⟩
  | .all bs f =>
    let r := forms f
    let neg := Nnf.ex bs <$> r.neg
    ⟨r.all bs, neg, (fun n => [n]) <$> neg, fun _ => .error .guardShape⟩

def formsList : List Formula → List Forms
  | [] => []
  | f :: fs => forms f :: formsList fs

end

/-- The normal form of a closed formula. -/
def toNnf (f : Formula) : Except FormulaError Nnf :=
  match f.freeVars, f.freeTimes with
  | v :: _, _ => .error (.freeVariable v.name)
  | [], i :: _ => .error (.freeVariable ("#" ++ i.name))
  | [], [] => f.forms.pos

/-- The normal form of a rule restriction, which may mention term variables but no timepoints. -/
def toTermNnf (f : Formula) : Except FormulaError Nnf :=
  if f.freeTimes.isEmpty then f.forms.pos else .error .temporal

end Formula

end ProtocolProver
