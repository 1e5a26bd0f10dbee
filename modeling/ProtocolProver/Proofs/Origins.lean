import ProtocolProver.Proofs.SettledSolutions

/-!
# Where messages come from

A term that the adversary needs may be taken out of any message that was sent before. It is enough to
look at the first message that it can be taken out of: `Execution.Tracks` says that every open chain
stands for this choice, and that a variable in a conclusion is still looked for, or that an earlier
node has it in a conclusion too. When nothing is looked for but the values of variables, the
adversary could derive these before they were sent (`Tracks.derives`). Hence a chain that has come to
a variable ends there (`Tracks.value_eq_of_chain`).
-/

namespace ProtocolProver

/-- The variable occurs in a conclusion of the node. -/
def Node.Offers (n : Node) (x : Var) : Prop :=
  ∃ f ∈ n.conclusions, ∃ t ∈ f.args, x ∈ t.occurrences

/-- The goal still looks for the term on behalf of node number `id`. -/
def Goal.Seeks (v : Valuation) (id : Nat) (n : Node) (t : Term) : Goal → Prop
  | .knows u i => u = t ∧ v.time i = v.time n.time
  | .chain _ u i => u = t ∧ v.time i = v.time n.time
  | .premise node idx => node = id ∧ ∃ f, n.premises[idx]? = some f ∧ t ∈ f.args
  | .action .. => False
  | .split _ => False

/-- The goals of a system without their numbers. -/
def System.pending (S : System) : List Goal := S.goals.map OpenGoal.goal

theorem System.pending_pushGoals (S : System) (gs : List Goal) :
    (S.pushGoals gs).pending = S.pending ++ gs := by
  obtain ⟨goals, next, he, rfl⟩ := @pushGoals_eq S gs
  rw [he, pending, pending, List.map_append]

theorem System.node?_pushGoals (S : System) (gs : List Goal) :
    (S.pushGoals gs).node? = S.node? := by
  obtain ⟨goals, next, he, -⟩ := @pushGoals_eq S gs
  rw [he]
  rfl

variable {m : Model}

namespace Execution

/-- The adversary takes the term `s`, which has come out of a message of the node, apart until it
yields `t`. No earlier message yields `t`. -/
structure Unfolds (R : Execution m) (v : Valuation) (n : Node) (s t : Term) (i : TimeVar) : Prop where
  before : v.time n.time < v.time i
  offered : ∀ x ∈ s.occurrences, n.Offers x
  derives : m.theory.Derives (R.sent (v.time i)) (s.mapVars v.term)
  first : ¬m.theory.Arises (R.sent (v.time n.time)) (R.sent (v.time i)) (t.mapVars v.term)

/-- A goal still looks for the variable on behalf of the node, or an earlier node offers it. -/
def Accounts (v : Valuation) (S : System) (gs : List Goal) (id : Nat) (n : Node) (x : Var) : Prop :=
  (∃ g ∈ gs, ∃ t, g.Seeks v id n t ∧ x ∈ t.occurrences) ∨
    ∃ id' n', S.node? id' = some n' ∧ v.time n'.time < v.time n.time ∧ n'.Offers x

/-- With the goals `gs`, every variable of sort `msg` that a node of the system offers is accounted
for, and every chain unfolds a message of a node. -/
structure Tracks (R : Execution m) (S : System) (gs : List Goal) (v : Valuation) : Prop where
  origins : ∀ id n, S.node? id = some n → ∀ x, n.Offers x → x.sort = .msg → Accounts v S gs id n x
  chains : ∀ s t i, .chain s t i ∈ gs → ∃ id n, S.node? id = some n ∧ R.Unfolds v n s t i

namespace Tracks

variable {R : Execution m} {l l' : List Goal} {S S' : System} {v u : Valuation} {g : Goal}

/-! ## Goals -/

theorem mono (h : R.Tracks S l v) (hnodes : S'.node? = S.node?)
    (hgoals : ∀ g ∈ l, g ∈ l' ∨ g.kind = .split ∨ g.kind = .action)
    (hchains : ∀ g ∈ l', g.kind = .chain → g ∈ l) : R.Tracks S' l' v := by
  refine ⟨fun id n hn x hx hsort => ?_, fun s t i hg => ?_⟩
  · rw [hnodes] at hn
    rw [Accounts, hnodes]
    refine (h.origins id n hn x hx hsort).imp_left fun ⟨g, hg, t, ht⟩ => ⟨g, ?_, t, ht⟩
    refine (hgoals g hg).resolve_right fun hkind => ?_
    cases g with
    | action | split => exact ht.1.elim
    | premise | knows | chain => rcases hkind with hkind | hkind <;> cases hkind
  · rw [hnodes]
    exact h.chains s t i (hchains _ hg rfl)

theorem frame (h : R.Tracks S l v) (hnodes : S'.node? = S.node?) : R.Tracks S' l v :=
  h.mono hnodes (fun _ => .inl) fun _ hg _ => hg

theorem tail (h : R.Tracks S (g :: l) v) (hg : g.kind = .split ∨ g.kind = .action) : R.Tracks S l v :=
  h.mono rfl (List.forall_mem_cons.2 ⟨.inr hg, fun _ => .inl⟩) fun _ hg _ => List.mem_cons_of_mem _ hg

/-- A goal is dropped when what it looks for is accounted for without it. -/
theorem drop (h : R.Tracks S (g :: l) v) (hg : ∀ id n, S.node? id = some n → ∀ t, g.Seeks v id n t →
    ∀ x ∈ t.occurrences, x.sort = .msg → Accounts v S l id n x) : R.Tracks S l v := by
  refine ⟨fun id n hn x hx hsort => ?_, fun s t i hg => h.chains s t i (List.mem_cons_of_mem _ hg)⟩
  rcases h.origins id n hn x hx hsort with ⟨g', hg', t, hseeks, ht⟩ | hn'
  · rcases List.mem_cons.1 hg' with rfl | hg'
    · exact hg id n hn t hseeks x ht hsort
    · exact .inl ⟨g', hg', t, hseeks, ht⟩
  · exact .inr hn'

theorem eraseGoal (h : R.Tracks S S.pending v) {k : Nat} {o : OpenGoal} (ho : S.goals[k]? = some o) :
    R.Tracks { S with goals := S.goals.eraseIdx k }
      (o.goal :: System.pending { S with goals := S.goals.eraseIdx k }) v := by
  refine h.mono rfl (List.forall_mem_map.2 fun o' ho' => .inl ?_)
    (List.forall_mem_cons.2 ⟨fun _ => List.mem_map_of_mem (List.mem_of_getElem? ho),
      List.forall_mem_map.2 fun o' ho' _ => List.mem_map_of_mem (List.mem_of_mem_eraseIdx ho')⟩)
  obtain ⟨j, hj⟩ := List.mem_iff_getElem?.1 ho'
  by_cases hjk : j = k
  · cases (hjk ▸ hj).symm.trans ho
    exact List.mem_cons_self ..
  · exact List.mem_cons_of_mem _
      (List.mem_map_of_mem (List.mem_eraseIdx_iff_getElem?.2 ⟨j, hjk, hj⟩))

theorem pushGoals (h : R.Tracks S (l ++ S.pending) v) (hs : List Goal)
    (hhs : ∀ g ∈ hs, g.kind ≠ .chain) : R.Tracks (S.pushGoals hs) (l ++ (S.pushGoals hs).pending) v := by
  rw [System.pending_pushGoals, ← List.append_assoc]
  exact h.mono (S.node?_pushGoals hs) (fun g hg => .inl (List.mem_append_left _ hg)) fun g hg hkind =>
    (List.mem_append.1 hg).resolve_right fun hg => hhs g hg hkind

theorem initial (target : Nnf) :
    R.Tracks (System.initial m target) (System.initial m target).pending v := by
  have hempty : R.Tracks {} ([] ++ System.pending {}) v :=
    ⟨fun id n hn => by simp [System.node?] at hn, fun s t i hg => by simp [System.pending] at hg⟩
  exact (hempty.pushGoals _ (List.forall_mem_map.2 fun _ _ => by simp [Goal.kind])).pushGoals
    [.split target] (List.forall_mem_singleton.2 (by simp [Goal.kind]))

/-- A new chain that unfolds a message of a node takes the place of a goal for the same term. -/
theorem pushChain (h : R.Tracks S (g :: S.pending) v) {id : Nat} {n : Node} (hn : S.node? id = some n)
    {s t : Term} {i : TimeVar} (hs : R.Unfolds v n s t i) (hg : ∀ id n u, g.Seeks v id n u →
      (Goal.chain s t i).Seeks v id n u) :
    R.Tracks (S.pushGoal (.chain s t i)) (S.pushGoal (.chain s t i)).pending v := by
  have h' : R.Tracks S (S.pending ++ [.chain s t i]) v := by
    refine ⟨fun id n hn x hx hsort => ?_, fun s' t' i' hg' => ?_⟩
    · rcases h.origins id n hn x hx hsort with ⟨g', hg', u, hseeks, hu⟩ | hn'
      · rcases List.mem_cons.1 hg' with rfl | hg'
        · exact .inl ⟨_, List.mem_append_right _ (List.mem_singleton_self _), u, hg id n u hseeks, hu⟩
        · exact .inl ⟨g', List.mem_append_left _ hg', u, hseeks, hu⟩
      · exact .inr hn'
    · rcases List.mem_append.1 hg' with hg' | hg'
      · exact h.chains s' t' i' (List.mem_cons_of_mem _ hg')
      · cases List.mem_singleton.1 hg'
        exact ⟨id, n, hn, hs⟩
  rw [← S.pending_pushGoals] at h'
  exact h'.frame (S.node?_pushGoals [_])

theorem simplified (h : R.Tracks S S.pending v) :
    R.Tracks S.dedupGoals.saturate S.dedupGoals.saturate.pending v := by
  have hdedup : R.Tracks S.dedupGoals S.dedupGoals.pending v := by
    refine h.mono rfl (List.forall_mem_map.2 fun o ho => .inl ?_) (List.forall_mem_map.2 fun o ho _ =>
      List.mem_map_of_mem (System.mem_dedupGoals ho))
    obtain ⟨o', ho', he⟩ := System.mem_dedupGoals_of_mem ho
    exact he ▸ List.mem_map_of_mem ho'
  obtain ⟨goals, next, applied, he, hgoals⟩ := @System.saturate_eq S.dedupGoals
  rw [he]
  refine hdedup.mono rfl (fun g hg => .inl ?_) fun g hg hkind => ?_
  · rw [System.pending, List.map_append]
    exact List.mem_append_left _ hg
  · rw [System.pending, List.map_append] at hg
    refine (List.mem_append.1 hg).resolve_right fun hg => ?_
    obtain ⟨_, _, _, _, rfl⟩ := hgoals _ hg
    cases hkind

/-! ## Values -/

/-- What a valuation gives to other variables and timepoints does not matter. -/
theorem congr {L : Fragment} {s : Scope} (h : R.Tracks S l v)
    (hS : ∀ id n, S.node? id = some n → s.time n.time) (hgs : ∀ g ∈ l, g.In L m.theory s)
    (huv : u.Agrees s v) : R.Tracks S l u := by
  refine ⟨fun id n hn x hx hsort => ?_, fun s' t i hg => ?_⟩
  · have hn' := huv.time _ (hS id n hn)
    rcases h.origins id n hn x hx hsort with ⟨g, hg, t, hseeks, ht⟩ | ⟨id', k, hk, hlt, hx⟩
    · refine .inl ⟨g, hg, t, ?_, ht⟩
      have hg := hgs g hg
      cases g with
      | action | split => exact hseeks.elim
      | premise => exact hseeks
      | knows t' i => exact ⟨hseeks.1, (huv.time i hg.2).trans (hseeks.2.trans hn'.symm)⟩
      | chain s' t' i => exact ⟨hseeks.1, (huv.time i hg.2.2).trans (hseeks.2.trans hn'.symm)⟩
    · refine .inr ⟨id', k, hk, ?_, hx⟩
      rw [huv.time _ (hS id' k hk), hn']
      exact hlt
  · obtain ⟨id, n, hn, hbefore, hoffered, hderives, hfirst⟩ := h.chains s' t i hg
    obtain ⟨hs, ht, hi⟩ : (Goal.chain s' t i).In L m.theory s := hgs _ hg
    refine ⟨id, n, hn, ?_, hoffered, ?_, ?_⟩ <;> rw [huv.time i hi]
    · exact (huv.time _ (hS id n hn)).trans_lt hbefore
    · exact huv.mapVars hs ▸ hderives
    · rw [huv.time _ (hS id n hn), huv.mapVars ht]
      exact hfirst

/-! ## Unifiers -/

/-- Terms are replaced by terms with the same values, whose variables come from theirs. -/
theorem mapTerms {ρ : Term → Term} {B : Var → Var → Prop} (hocc : ∀ t : Term, t.Has m.theory.plainShape →
      ∀ x, x ∈ (ρ t).occurrences ↔ ∃ y ∈ t.occurrences, B y x)
    (hmsg : ∀ x y, B y x → x.sort = .msg → y.sort = .msg)
    (hvalue : ∀ t : Term, t.Has m.theory.plainShape → (ρ t).mapVars v.term = t.mapVars v.term)
    (hS : S.Has m.theory.plainShape) (hgs : ∀ g ∈ l, g.Has m.theory.plainShape)
    (h : R.Tracks S l v) : R.Tracks (S.mapTerms ρ) (l.map (·.map ρ id)) v := by
  have hnode : ∀ {a : Nat} {n : Node}, S.node? a = some n →
      (S.mapTerms ρ).node? a = some (n.mapTerms ρ) := by
    intro a n hn
    rw [System.node?_mapTerms, hn]
    rfl
  have hoffers : ∀ {a : Nat} {n : Node} {x y : Var}, S.node? a = some n → n.Offers y → B y x →
      (n.mapTerms ρ).Offers x := by
    rintro a n x y hn ⟨f, hf, t, ht, hy⟩ hx
    exact ⟨_, List.mem_map_of_mem hf, _, List.mem_map_of_mem ht,
      (hocc t ((hS.nodes a n hn).conclusions f hf t ht) x).2 ⟨y, hy, hx⟩⟩
  refine ⟨fun a n' hn' x hx hsort => ?_, fun s' t' i hg => ?_⟩
  · rw [System.node?_mapTerms, Option.map_eq_some_iff] at hn'
    obtain ⟨n, hn, rfl⟩ := hn'
    obtain ⟨f', hf', t', ht', hx⟩ := hx
    obtain ⟨f, hf, rfl⟩ := List.mem_map.1 hf'
    obtain ⟨t, ht, rfl⟩ := List.mem_map.1 ht'
    obtain ⟨y, hy, hx⟩ := (hocc t ((hS.nodes a n hn).conclusions f hf t ht) x).1 hx
    rcases h.origins a n hn y ⟨f, hf, t, ht, hy⟩ (hmsg x y hx hsort) with
      ⟨g, hg, u, hseeks, hu⟩ | ⟨b, k, hk, hlt, hy⟩
    · have hplain := hgs g hg
      obtain ⟨hu', hseeks⟩ :
          u.Has m.theory.plainShape ∧ (g.map ρ id).Seeks v a (n.mapTerms ρ) (ρ u) := by
        cases g with
        | action | split => exact hseeks.elim
        | knows u' i | chain s u' i =>
          obtain ⟨rfl, hi⟩ := hseeks
          exact ⟨hplain _ (by simp [Goal.terms]), rfl, hi⟩
        | premise node idx =>
          obtain ⟨rfl, f, hf, ht⟩ := hseeks
          refine ⟨(hS.nodes _ n hn).premises f (List.mem_of_getElem? hf) u ht, rfl, f.mapTerms ρ, ?_,
            List.mem_map_of_mem ht⟩
          rw [Node.mapTerms, List.getElem?_map, hf]
          rfl
      exact .inl ⟨_, List.mem_map_of_mem hg, _, hseeks, (hocc u hu' x).2 ⟨y, hu, hx⟩⟩
    · exact .inr ⟨b, _, hnode hk, hlt, hoffers hk hy hx⟩
  · obtain ⟨g, hmem, he⟩ := List.mem_map.1 hg
    cases g with
    | chain s t i' =>
      simp only [Goal.map, Goal.chain.injEq] at he
      obtain ⟨rfl, rfl, rfl⟩ := he
      obtain ⟨a, n, hn, hbefore, hoffered, hderives, hfirst⟩ := h.chains s t i' hmem
      have hs := hgs _ hmem s (by simp [Goal.terms])
      refine ⟨a, _, hnode hn, hbefore, fun x hx => ?_, hvalue s hs ▸ hderives, ?_⟩
      · obtain ⟨y, hy, hx⟩ := (hocc s hs x).1 hx
        exact hoffers hn (hoffered y hy) hx
      · rw [hvalue t (hgs _ hmem t (by simp [Goal.terms]))]
        exact hfirst
    | action | premise | knows | split => cases he

section Apply

variable {V : Var → Prop} {σ : Subst} (hσ : σ.Over (m.theory.constructors V))
  (hV : ∀ x, V x → x.idx ≠ 0)
include hσ

omit hV in
theorem sort_eq_msg {x y : Var} (hx : x ∈ (σ.value y).occurrences) (hsort : x.sort = .msg) :
    y.sort = .msg := by
  have hadmits := hσ.within.sort_value y
  cases he : σ.value y with
  | var z =>
    rw [he] at hx hadmits
    cases List.mem_singleton.1 hx
    exact TermSort.eq_msg_of_admits (hsort ▸ hadmits)
  | name => rw [he] at hx; cases hx
  | app => rw [he] at hadmits; exact TermSort.eq_msg_of_admits hadmits

include hV

theorem normalize_apply {t : Term} (ht : t.Has m.theory.plainShape) :
    m.theory.normalize (σ.apply t) = t.mapVars σ.value :=
  hσ.normalize_apply (s := ⟨fun _ => True, fun _ => True⟩) (fun x hx => ⟨trivial, hV x hx⟩) ht

theorem normalize_of_isEmpty (h : σ.isEmpty = true) {t : Term} (ht : t.Has m.theory.plainShape) :
    m.theory.normalize (σ.apply t) = t := by
  obtain rfl : σ = ∅ := SortedMap.eq_of_entries (List.isEmpty_iff.1 h)
  exact (normalize_apply hσ hV ht).trans t.mapVars_var

theorem node?_apply (hS : S.Has m.theory.plainShape) (a : Nat) : (S.apply m.theory σ).node? a =
    (S.node? a).map (·.mapTerms fun t => m.theory.normalize (σ.apply t)) := by
  unfold System.apply
  split
  · cases hn : S.node? a with
    | none => rfl
    | some n =>
      obtain ⟨hsubst, hp, hac, hc⟩ := hS.nodes a n hn
      have hterm := fun t => normalize_of_isEmpty hσ hV ‹_› (t := t)
      have hfacts : ∀ fs : List Fact, (∀ f ∈ fs, f.Has m.theory.plainShape) →
          fs.map (·.mapTerms fun t => m.theory.normalize (σ.apply t)) = fs := fun fs hfs =>
        (List.map_congr_left fun f hf => congrArg (Fact.mk f.pred f.multiplicity)
          ((List.map_congr_left fun t ht => hterm t (hfs f hf t ht)).trans (List.map_id _))).trans
          (List.map_id _)
      have hvalues : n.subst.mapValues (fun t => m.theory.normalize (σ.apply t)) = n.subst := by
        refine SortedMap.ext_get? fun x => ?_
        rw [SortedMap.get?_mapValues]
        cases ht : n.subst.get? x with
        | none => rfl
        | some t => rw [Option.map_some, hterm t (hsubst x t ht).1]
      rw [Option.map_some, Node.mapTerms, hfacts _ hp, hfacts _ hac, hfacts _ hc, hvalues]
  · exact S.node?_mapTerms _ a

theorem apply (ha : σ.Absorbed v.term) (hS : S.Has m.theory.plainShape)
    (hgs : ∀ g ∈ l, g.Has m.theory.plainShape) (h : R.Tracks S (l ++ S.pending) v) :
    R.Tracks (S.apply m.theory σ) (l.map (·.map (fun t => m.theory.normalize (σ.apply t)) id) ++
      (S.apply m.theory σ).pending) v := by
  unfold System.apply
  split
  · have hterm := fun t => normalize_of_isEmpty hσ hV ‹_› (t := t)
    have hmap : ∀ g ∈ l, g.map (fun t => m.theory.normalize (σ.apply t)) id = g ∨
        g.kind = .split ∨ g.kind = .action := by
      intro g hg
      have hplain := hgs g hg
      cases g with
      | action | split => simp [Goal.kind]
      | premise => exact .inl rfl
      | knows t i => simp [Goal.map, hterm t (hplain t (by simp [Goal.terms]))]
      | chain s t i =>
        simp [Goal.map, hterm s (hplain s (by simp [Goal.terms])),
          hterm t (hplain t (by simp [Goal.terms]))]
    refine h.mono rfl (List.forall_mem_append.2 ⟨fun g hg => (hmap g hg).imp_left fun he => ?_,
      fun g hg => .inl (List.mem_append_right _ hg)⟩)
      (List.forall_mem_append.2 ⟨List.forall_mem_map.2 fun g hg hkind => ?_,
        fun g hg _ => List.mem_append_right _ hg⟩)
    · exact List.mem_append_left _ (List.mem_map.2 ⟨g, hg, he⟩)
    · rcases hmap g hg with he | he
      · rw [he]
        exact List.mem_append_left _ hg
      · cases g <;> simp [Goal.map, Goal.kind] at hkind he
  · have hmapped := h.mapTerms (B := fun y x => x ∈ (σ.value y).occurrences)
      (fun t ht x => by rw [normalize_apply hσ hV ht]; exact Term.mem_occurrences_mapVars)
      (fun x y => sort_eq_msg hσ) (fun t ht => Fulfils.mapVars_apply hσ hV ha ht) hS
      (List.forall_mem_append.2 ⟨hgs, List.forall_mem_map.2 hS.goals⟩)
    simp only [List.map_append, List.map_map] at hmapped
    simp only [System.pending, System.mapTerms, List.map_map]
    exact hmapped

end Apply

/-! ## New nodes -/

/-- The premises of a copy of a rule look for its variables. -/
theorem exists_seeks (hm : m.Plain) {rule : Nat} {r : Rule} (hr : m.rules[rule]? = some r) {id : Nat}
    {i : TimeVar} {x : Var} (hx : (System.ruleNode m rule r (r.rename S.supply) i).Offers x)
    (hsort : x.sort = .msg) :
    ∃ g ∈ System.nodeGoals id (System.ruleNode m rule r (r.rename S.supply) i) r, ∃ t,
      g.Seeks v id (System.ruleNode m rule r (r.rename S.supply) i) t ∧ x ∈ t.occurrences := by
  have hmem := List.mem_of_getElem? hr
  have hscope := hm.scope.rules r hmem
  have hinstance : ∀ f ∈ r.facts, f.instantiate m.theory (r.rename S.supply) =
      f.mapTerms (Term.reindex S.supply.next) := fun f hf =>
    hscope.instantiate (fun _ => Rule.value_rename) hf
  obtain ⟨f', hf', t', ht', hx⟩ := hx
  obtain ⟨f, hf, rfl⟩ := List.mem_map.1 hf'
  rw [hinstance f (List.mem_append_right _ hf)] at ht'
  obtain ⟨t, ht, rfl⟩ := List.mem_map.1 ht'
  obtain ⟨y, hy, hx⟩ := Term.mem_occurrences_mapVars.1 hx
  cases List.mem_singleton.1 hx
  have hsort : y.sort = .msg := hsort
  -- The variable stands for one of the rule, which a premise binds.
  rcases hm.bound r hmem y (hscope.facts f (List.mem_append_right _ hf) t ht y hy) with
    hpub | ⟨p, hp, w, hw, hyw⟩
  · rw [hsort] at hpub
    cases hpub
  obtain ⟨idx, hidx⟩ := List.mem_iff_getElem?.1 hp
  have hpremise : (System.ruleNode m rule r (r.rename S.supply) i).premises[idx]? =
      some (p.mapTerms (Term.reindex S.supply.next)) := by
    rw [System.ruleNode, List.getElem?_map, hidx, Option.map_some,
      hinstance p (List.mem_append_left _ (List.mem_append_left _ hp))]
  have hgoal : ∀ g ∈ System.premiseGoals id i idx (p.mapTerms (Term.reindex S.supply.next)),
      g ∈ System.nodeGoals id (System.ruleNode m rule r (r.rename S.supply) i) r := fun g hg =>
    List.mem_append_left _ (List.mem_flatMap.2 ⟨_, List.mk_mem_zipIdx_iff_getElem?.2 hpremise, hg⟩)
  have hoccurs : y.reindex S.supply.next ∈ (w.reindex S.supply.next).occurrences :=
    Term.mem_occurrences_mapVars.2 ⟨y, hyw, List.mem_singleton_self _⟩
  unfold System.premiseGoals at hgoal
  split at hgoal
  · exact ⟨_, hgoal _ (List.mem_map_of_mem (List.mem_map_of_mem hw)), _, ⟨rfl, rfl⟩, hoccurs⟩
  split at hgoal
  · obtain ⟨z, hz, hargs⟩ := hm.draws r hmem p hp ‹_›
    rw [hargs] at hw
    cases List.mem_singleton.1 hw
    cases List.mem_singleton.1 hyw
    rw [hsort] at hz
    cases hz
  · exact ⟨_, hgoal _ (List.mem_singleton_self _), _, ⟨rfl, _, hpremise, List.mem_map_of_mem hw⟩, hoccurs⟩

theorem addNode (hm : m.Plain) (h : R.Tracks S (g :: S.pending) v) (hS : S.WellFormed m.theory)
    (hg : g.In .indexed m.theory (.below S.supply.next)) (hu : u.Agrees (.below S.supply.next) v)
    {rule : Nat} {r : Rule} (hr : m.rules[rule]? = some r) (time : Option TimeVar) :
    R.Tracks (S.addNode m rule time).2 (g :: (S.addNode m rule time).2.pending) u := by
  have h := h.congr (fun id n hn => (hS.scope.nodes id n hn).time)
    (List.forall_mem_cons.2 ⟨hg, List.forall_mem_map.2 hS.scope.goals⟩) hu
  obtain ⟨i, goals, supply, next, he, hgoals, -, -⟩ := @System.addNode_eq S m rule r hr time
  rw [he, System.pending, List.map_append, hgoals, ← List.cons_append]
  have hnode := fun id => System.node?_append S
    (System.ruleNode m rule r (r.rename S.supply) i) rfl id
  have hold : ∀ {id : Nat} {n : Node}, S.node? id = some n →
      (S.nodes ++ [some (System.ruleNode m rule r (r.rename S.supply) i)])[id]?.join = some n := by
    intro id n hn
    rw [hnode, if_neg (System.lt_of_node? hn).ne]
    exact hn
  refine ⟨fun id n hn x hx hsort => ?_, fun s t i' hmem => ?_⟩
  · rw [System.node?, hnode] at hn
    split at hn
    · cases hn
      obtain ⟨g, hg, t, hseeks, ht⟩ := exists_seeks hm hr hx hsort
      exact .inl ⟨g, List.mem_append_right _ hg, t, ‹id = _› ▸ hseeks, ht⟩
    · rcases h.origins id n hn x hx hsort with ⟨g, hg, ht⟩ | ⟨id', n', hn', ht⟩
      · exact .inl ⟨g, List.mem_append_left _ hg, ht⟩
      · exact .inr ⟨id', n', hold hn', ht⟩
  · rcases List.mem_append.1 hmem with hmem | hmem
    · obtain ⟨id, n, hn, hs⟩ := h.chains s t i' hmem
      exact ⟨id, n, hold hn, hs⟩
    · rcases List.mem_append.1 hmem with hmem | hmem
      · obtain ⟨⟨f, idx⟩, -, hmem⟩ := List.mem_flatMap.1 hmem
        simp [System.premiseGoals] at hmem
        split_ifs at hmem <;> simp at hmem
      · obtain ⟨f, -, he⟩ := List.mem_map.1 hmem
        cases he

/-! ## When only the values of variables are left open -/

section Deferred

theorem exists_name (hvalues : ∀ x, m.theory.Value (v.term x)) (hsorts : RespectsSorts v.term) {x : Var}
    (hx : x.sort ≠ .msg) : ∃ n, v.term x = .name n := by
  have hvalue := hvalues x
  have hsort := hsorts x
  cases he : v.term x with
  | var y => rw [he] at hvalue; cases hvalue
  | name n => exact ⟨n, rfl⟩
  | app f as =>
    rw [he] at hsort
    exact absurd (TermSort.eq_msg_of_admits hsort) hx

variable (hm : m.Plain) (hvalues : ∀ x, m.theory.Value (v.term x)) (hsorts : RespectsSorts v.term)
  (h : R.Tracks S l v) (hholds : ∀ g ∈ l, g.Holds R S v)
  (hdeferred : ∀ g ∈ l, g.isDeferred = true)
include hm hvalues hsorts h hholds

/-- A chain that has come to a variable yields the value of the variable only, which is a name, if the
adversary could derive the values of variables before they were sent. -/
theorem eq_name {y : Var} {t : Term} {i : TimeVar} (hg : .chain (.var y) t i ∈ l)
    (hderives : ∀ a n, S.node? a = some n → v.time n.time < v.time i → n.Offers y → y.sort = .msg →
      m.theory.Derives (R.sent (v.time n.time)) (v.term y)) :
    ∃ n, v.term y = .name n ∧ t.mapVars v.term = .name n := by
  obtain ⟨a, n, hn, hbefore, hoffered, -, hfirst⟩ := h.chains (.var y) t i hg
  have hreach : m.theory.Reaches (R.sent (v.time i)) (v.term y) (t.mapVars v.term) := hholds _ hg
  by_cases hy : y.sort = .msg
  · exact absurd (hm.shallow.arises_of_reaches (fun t => R.sent_mono hbefore.le)
      (hderives a n hn hbefore (hoffered y (List.mem_singleton_self _)) hy) hreach) hfirst
  · obtain ⟨name, he⟩ := exists_name hvalues hsorts hy
    rw [he] at hreach
    exact ⟨name, he, hreach.eq_of_name⟩

include hdeferred

/-- The adversary could derive the value of a variable before the node that offers it. -/
theorem derives {a : Nat} {n : Node} (hn : S.node? a = some n) {x : Var} (hx : n.Offers x)
    (hsort : x.sort = .msg) : m.theory.Derives (R.sent (v.time n.time)) (v.term x) := by
  induction hk : v.time n.time using Nat.strong_induction_on generalizing a n x with
  | _ k ih =>
    subst hk
    rcases h.origins a n hn x hx hsort with ⟨g, hg, t, hseeks, hxt⟩ | ⟨b, n', hn', hlt, hx'⟩
    · have hd := hdeferred g hg
      have hg' := hholds g hg
      cases g with
      | action | split => exact hseeks.elim
      | premise => cases hd
      | knows t' i =>
        obtain ⟨rfl, hi⟩ := hseeks
        cases t' with
        | var y =>
          cases List.mem_singleton.1 hxt
          exact hi ▸ hg'
        | name | app => cases hd
      | chain s t' i =>
        obtain ⟨rfl, hi⟩ := hseeks
        cases s with
        | name | app => cases hd
        | var y =>
          obtain ⟨name, hy, ht⟩ := h.eq_name hm hvalues hsorts hholds hg fun b n' hn' hlt hy hmsg =>
            ih _ (hi ▸ hlt) hn' hy hmsg rfl
          obtain ⟨-, -, -, -, -, hderives, -⟩ := h.chains _ t' i hg
          cases t' with
          | var z =>
            cases List.mem_singleton.1 hxt
            exact hi ▸ (show v.term x = v.term y from ht.trans hy.symm) ▸ hderives
          | name => cases hxt
          | app => rw [Term.mapVars_app] at ht; cases ht
    · exact (ih _ hlt hn' hx' hsort rfl).mono fun t => R.sent_mono hlt.le

theorem value_eq_of_chain {y : Var} {t : Term} {i : TimeVar}
    (hg : .chain (.var y) t i ∈ l) : v.term y = t.mapVars v.term := by
  obtain ⟨name, hy, ht⟩ := h.eq_name hm hvalues hsorts hholds hg fun _ _ hn _ hy hmsg =>
    h.derives hm hvalues hsorts hholds hdeferred hn hy hmsg
  rw [hy, ht]

end Deferred

end Tracks

end Execution

end ProtocolProver
