import Mathlib.Algebra.Group.Basic
import ProtocolProver.Data.Thread

/-!
# What threads keep to

Threads that share a state can rely on each other if each of them keeps to the same rules
(`Process.Rules`): the state develops in one direction, and an invariant holds of the state together
with what the threads hold. What a thread holds is an element of a commutative monoid, so the
invariant can say how much all of them hold, while each one knows its own part only.

`Process.Meets` says of one process, whatever the others do by the rules, that it keeps to them, ends
and leaves a value as it should. Processes that do so alone do so side by side
(`Process.Meets.both`).
-/

namespace ProtocolProver

namespace Process

variable {σ α β M : Type} [AddCommMonoid M]

/-- How threads may treat a state that they share. -/
structure Rules (σ M : Type) [AddCommMonoid M] where
  /-- What is true of the state and of all that the threads hold. -/
  inv : M → σ → Prop
  /-- How the state may develop. -/
  later : σ → σ → Prop
  refl : ∀ s, later s s
  trans : ∀ {s s' s''}, later s s' → later s' s'' → later s s''

/-- The process holds `c` and was last at the state `s`. It keeps to the rules as long as the others
do, and ends with a value that satisfies `Q` together with what it holds then. -/
def Meets (R : Rules σ M) (Q : α → M → σ → Prop) : Process σ α → M → σ → Prop
  | done a, c, s => ∀ s', R.later s s' → Q a c s'
  | access update next, c, s => ∀ s' d, R.later s s' → R.inv (c + d) s' →
      R.later s' (update s') ∧ ∃ c', (∀ d, R.inv (c + d) s' → R.inv (c' + d) (update s')) ∧
        Meets R Q (next s') c' (update s')
  | endless, _, _ => False

namespace Meets

variable {R : Rules σ M} {Q : α → M → σ → Prop} {Q' : β → M → σ → Prop} {p : Process σ α} {c : M}
  {s s' : σ}

theorem later (h : p.Meets R Q c s) (hs : R.later s s') : p.Meets R Q c s' := by
  cases p with
  | done a => exact fun s'' h' => h s'' (R.trans hs h')
  | access update next => exact fun s'' d h' => h s'' d (R.trans hs h')
  | endless => exact h

theorem imp {Q' : α → M → σ → Prop} (hQ : ∀ {a c s}, Q a c s → Q' a c s) :
    ∀ {p : Process σ α} {c : M} {s : σ}, p.Meets R Q c s → p.Meets R Q' c s
  | done _, _, _, h => fun s' hs => hQ (h s' hs)
  | access _ _, _, _, h => fun s' d hs hinv => by
    obtain ⟨hlater, c', hc', hnext⟩ := h s' d hs hinv
    exact ⟨hlater, c', hc', hnext.imp hQ⟩

/-- The process holds `d` besides what it needs, and goes on with both. What its value satisfies is
true at all later states. -/
theorem bind_frame {k : α → Process σ β} {d : M} : ∀ {p : Process σ α} {c : M} {s : σ},
    p.Meets R Q c s →
      (∀ a c' s', R.later s s' → (∀ s'', R.later s' s'' → Q a c' s'') →
        (k a).Meets R Q' (c' + d) s') → (p.bind k).Meets R Q' (c + d) s
  | done a, c, s, h, hk => hk a c s (R.refl s) h
  | access update next, c, s, h, hk => fun s' e hs hinv => by
    obtain ⟨hlater, c', hc', hnext⟩ := h s' (d + e) hs (add_assoc c d e ▸ hinv)
    exact ⟨hlater, c' + d, fun e he => add_assoc c' d e ▸ hc' _ (add_assoc c d e ▸ he),
      hnext.bind_frame fun a c'' s'' hs'' => hk a c'' s'' (R.trans hs (R.trans hlater hs''))⟩

theorem bind {k : α → Process σ β} (h : p.Meets R Q c s)
    (hk : ∀ a c' s', R.later s s' → (∀ s'', R.later s' s'' → Q a c' s'') →
      (k a).Meets R Q' c' s') : (p.bind k).Meets R Q' c s := by
  rw [← add_zero c]
  refine h.bind_frame fun a c' s' hs ha => ?_
  rw [add_zero]
  exact hk a c' s' hs ha

/-- Two processes that keep to the rules do so side by side. The induction is on the turns, and the
one that makes no access moves on to the state after the access of the other. -/
theorem both {turns : List Bool} {p : Process σ α} {q : Process σ β} {c d : M} {s : σ}
    (hp : p.Meets R Q c s) (hq : q.Meets R Q' d s) :
    (Process.both turns p q).Meets R
      (fun ab e s' => ∃ c' d', e = c' + d' ∧ Q ab.1 c' s' ∧ Q' ab.2 d' s') (c + d) s := by
  fun_induction Process.both turns p q generalizing c d s with
  | case1 turns update next q ih =>
    intro s' e hs hinv
    obtain ⟨hlater, c', hc', hnext⟩ := hp s' (d + e) hs (add_assoc c d e ▸ hinv)
    exact ⟨hlater, c' + d, fun e he => add_assoc c' d e ▸ hc' _ (add_assoc c d e ▸ he),
      ih s' hnext (hq.later (R.trans hs hlater))⟩
  | case2 turns p update next ih =>
    intro s' e hs hinv
    have hcomm : ∀ d e, c + d + e = d + (c + e) := fun d e => by rw [add_comm c, add_assoc]
    obtain ⟨hlater, d', hd', hnext⟩ := hq s' (c + e) hs (hcomm d e ▸ hinv)
    exact ⟨hlater, c + d', fun e he => hcomm d' e ▸ hd' _ (hcomm d e ▸ he),
      ih s' (hp.later (R.trans hs hlater)) hnext⟩
  | case3 p q =>
    refine hp.bind_frame fun a c' s₁ hs ha => ?_
    rw [add_comm]
    refine (hq.later hs).bind_frame fun b d' s₂ hs' hb s₃ hs'' => ?_
    exact ⟨c', d', add_comm d' c', ha s₃ (R.trans hs' hs''), hb s₃ hs''⟩

/-- Alone, a process ends, and the rules were kept. -/
theorem run : ∀ {p : Process σ α} {c : M} {s : σ}, p.Meets R Q c s → R.inv c s →
    ∃ a c' s', p.run s = some (a, s') ∧ R.later s s' ∧ R.inv c' s' ∧ Q a c' s'
  | done a, c, s, h, hinv => ⟨a, c, s, rfl, R.refl s, hinv, h s (R.refl s)⟩
  | access update next, c, s, h, hinv => by
    have hzero : R.inv (c + 0) s := (add_zero c).symm ▸ hinv
    obtain ⟨hlater, c', hc', hnext⟩ := h s 0 (R.refl s) hzero
    obtain ⟨a, c'', s', hrun, hs', hinv', ha⟩ := hnext.run (add_zero c' ▸ hc' 0 hzero)
    exact ⟨a, c'', s', hrun, R.trans hlater hs', hinv', ha⟩

end Meets

theorem bind_done : ∀ p : Process σ α, p.bind done = p
  | done _ => rfl
  | access update next => congrArg (access update) (funext fun s => bind_done (next s))
  | endless => rfl

end Process

namespace Thread

variable {σ α β M : Type} [AddCommMonoid M]

/-- The process of a thread keeps to the rules. -/
def Meets (R : Process.Rules σ M) (Q : α → M → σ → Prop) (p : Thread σ α) (c : M) (s : σ) : Prop :=
  p.process.Meets R Q c s

theorem process_bind (p : Thread σ α) (f : α → Thread σ β) :
    (p >>= f).process = p.process.bind fun a => (f a).process := p.before_eq _

theorem process_both (turns : List Bool) (p : Thread σ α) (q : Thread σ β) :
    (both turns p q).process = Process.both turns p.process q.process := by
  cases turns with
  | nil =>
    refine (p.before_eq _).trans (congrArg p.process.bind (funext fun a => ?_))
    exact q.before_eq _
  | cons t ts => exact Process.bind_done _

namespace Meets

variable {R : Process.Rules σ M} {Q : α → M → σ → Prop} {Q' : β → M → σ → Prop} {p : Thread σ α}
  {q : Thread σ β} {c d : M} {s : σ}

theorem pure {a : α} (h : ∀ s', R.later s s' → Q a c s') :
    (Pure.pure a : Thread σ α).Meets R Q c s := h

theorem imp {Q' : α → M → σ → Prop} (h : p.Meets R Q c s) (hQ : ∀ {a c s}, Q a c s → Q' a c s) :
    p.Meets R Q' c s := Process.Meets.imp hQ h

theorem bind_frame {f : α → Thread σ β} (h : p.Meets R Q c s)
    (hf : ∀ a c' s', R.later s s' → (∀ s'', R.later s' s'' → Q a c' s'') →
      (f a).Meets R Q' (c' + d) s') : (p >>= f).Meets R Q' (c + d) s := by
  rw [Meets, process_bind]
  exact Process.Meets.bind_frame h hf

theorem bind {f : α → Thread σ β} (h : p.Meets R Q c s)
    (hf : ∀ a c' s', R.later s s' → (∀ s'', R.later s' s'' → Q a c' s'') →
      (f a).Meets R Q' c' s') : (p >>= f).Meets R Q' c s := by
  rw [Meets, process_bind]
  exact Process.Meets.bind h hf

theorem both (turns : List Bool) (hp : p.Meets R Q c s) (hq : q.Meets R Q' d s) :
    (Thread.both turns p q).Meets R
      (fun ab e s' => ∃ c' d', e = c' + d' ∧ Q ab.1 c' s' ∧ Q' ab.2 d' s') (c + d) s := by
  rw [Meets, process_both]
  exact Process.Meets.both hp hq

/-- The state is read, and others go on before the next access. -/
theorem read {f : σ → Thread σ β}
    (hf : ∀ s' d, R.later s s' → R.inv (c + d) s' → (f s').Meets R Q' c s') :
    (Thread.read >>= f).Meets R Q' c s := fun s' d hs hinv =>
  ⟨R.refl s', c, fun _ => id, hf s' d hs hinv⟩

theorem access {update : σ → σ} {f : σ → Thread σ β} (c' : σ → M)
    (hlater : ∀ s', R.later s' (update s'))
    (hinv : ∀ s' d, R.later s s' → R.inv (c + d) s' → R.inv (c' s' + d) (update s'))
    (hf : ∀ s', R.later s s' → (f s').Meets R Q' (c' s') (update s')) :
    (Thread.access update >>= f).Meets R Q' c s := fun s' _ hs _ =>
  ⟨hlater s', c' s', fun d => hinv s' d hs, hf s' hs⟩

theorem modify {update : σ → σ} {f : Unit → Thread σ β} (c' : M)
    (hlater : ∀ s', R.later s' (update s'))
    (hinv : ∀ s' d, R.later s s' → R.inv (c + d) s' → R.inv (c' + d) (update s'))
    (hf : ∀ s', R.later s s' → (f ()).Meets R Q' c' (update s')) :
    (Thread.modify update >>= f).Meets R Q' c s := fun s' _ hs _ =>
  ⟨hlater s', c', fun d => hinv s' d hs, hf s' hs⟩

end Meets

end Thread

end ProtocolProver
