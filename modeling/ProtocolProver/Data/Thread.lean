/-!
# Threads that share a state

A process works on a state that it shares with others, one access after the other. What the others
do between two of its accesses is not up to the process: `Process.both` runs two of them side by
side, in turns that are given from outside. A thread is a process that is told how to go on with its
value, so threads are put together in constant time.
-/

namespace ProtocolProver

/-- A computation of an `α`, access by access to a state of type `σ`. -/
inductive Process (σ α : Type) where
  | done (a : α)
  /-- Replaces the state, and goes on with the one that it found. -/
  | access (update : σ → σ) (next : σ → Process σ α)
  /-- The computation does not come to an end. -/
  | endless

namespace Process

variable {σ α β γ : Type}

def bind : Process σ α → (α → Process σ β) → Process σ β
  | done a, k => k a
  | access update next, k => access update fun s => (next s).bind k
  | endless, _ => endless

theorem bind_assoc (k : α → Process σ β) (l : β → Process σ γ) :
    ∀ p : Process σ α, (p.bind k).bind l = p.bind fun a => (k a).bind l
  | done _ => rfl
  | access update next => congrArg (access update) (funext fun s => bind_assoc k l (next s))
  | endless => rfl

/-- What the process computes alone, and the state that it leaves. -/
def run : Process σ α → σ → Option (α × σ)
  | done a, s => some (a, s)
  | access update next, s => (next s).run (update s)
  | endless, _ => none

/-- Two processes side by side: `true` stands for an access of the first. When there are no turns
left, or the one whose turn it is makes no access, then the first goes on before the second. -/
def both : List Bool → Process σ α → Process σ β → Process σ (α × β)
  | true :: turns, access update next, q => access update fun s => both turns (next s) q
  | false :: turns, p, access update next => access update fun s => both turns p (next s)
  | _, p, q => p.bind fun a => q.bind fun b => done (a, b)

end Process

/-- A process that goes on with its value as it is told. -/
structure Thread (σ α : Type) where
  before {ρ : Type} (k : α → Process σ ρ) : Process σ ρ
  before_eq {ρ : Type} (k : α → Process σ ρ) : before k = (before .done).bind k

namespace Thread

variable {σ α β : Type}

/-- The process that ends with the value. -/
def process (p : Thread σ α) : Process σ α := p.before .done

instance : Monad (Thread σ) where
  pure a := ⟨fun k => k a, fun _ => rfl⟩
  bind p f := ⟨fun k => p.before fun a => (f a).before k, fun k => by
    rw [p.before_eq, p.before_eq fun a => (f a).before .done, Process.bind_assoc]
    exact congrArg _ (funext fun a => (f a).before_eq k)⟩

/-- Replaces the state, and returns the one before. -/
def access (update : σ → σ) : Thread σ σ := ⟨.access update, fun _ => rfl⟩

/-- The state as it is. -/
def read : Thread σ σ := access id

def modify (update : σ → σ) : Thread σ Unit := ⟨fun k => .access update fun _ => k (), fun _ => rfl⟩

def endless : Thread σ α := ⟨fun _ => .endless, fun _ => rfl⟩

/-- Two threads side by side. -/
def both (turns : List Bool) (p : Thread σ α) (q : Thread σ β) : Thread σ (α × β) where
  before k :=
    match turns with
    | [] => p.before fun a => q.before fun b => k (a, b)
    | turns => (Process.both turns p.process q.process).bind k
  before_eq k := by
    cases turns with
    | nil => exact (do return (← p, ← q) : Thread σ (α × β)).before_eq k
    | cons t ts => simp only [Process.bind_assoc, Process.bind]

/-- Several threads side by side, each with the turns that it has before the later ones. -/
def all {ι : Type} (turns : ι → List Bool) : List (ι × Thread σ α) → Thread σ (List α)
  | [] => pure []
  | (i, p) :: rest => do
    let (a, as) ← both (turns i) p (all turns rest)
    return a :: as

end Thread

end ProtocolProver
