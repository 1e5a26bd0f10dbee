import ProtocolProver.Proofs.Deconstruction

/-!
# Saturated knowledge

Knowledge is saturated if nothing that a known message releases is missing. What can be released step
by step is a subterm of a known message or a power with some of the factors of an exponent in one
(`Theory.fragments`), and there are fewer of these than `learn` allows rounds, so learning ends by
itself (`learns_learn`), with saturated knowledge (`Saturated.learn`). This is the least saturated
knowledge with what was observed, so the order of the observations does not matter
(`learnAll_perm`). In the theories of packs this is so for all ground terms
(`learning_ends_with_parts`).
-/

namespace ProtocolProver

/-! ## Subterms -/

namespace Term

variable {t u : Term}

theorem length_breadthFirst_le : ∀ (n : Nat) (queue : List Term), (breadthFirst n queue).length ≤ n
  | 0, _ => Nat.le_refl 0
  | _ + 1, [] => Nat.zero_le _
  | n + 1, t :: queue => Nat.succ_le_succ (length_breadthFirst_le n (queue ++ t.args))

theorem size_le_of_mem_breadthFirst : ∀ {n : Nat} {queue : List Term},
    u ∈ breadthFirst n queue → u.size ≤ sizeList queue
  | n + 1, t :: queue, h => by
    rw [sizeList]
    rcases List.mem_cons.1 h with rfl | h
    · omega
    · have hle := size_le_of_mem_breadthFirst h
      have hargs := t.sizeList_args_lt
      rw [sizeList_append] at hle
      omega

theorem size_le_of_mem_subterms (h : u ∈ t.subterms) : u.size ≤ t.size := by
  simpa [sizeList] using size_le_of_mem_breadthFirst h

theorem length_subterms_le (t : Term) : t.subterms.length ≤ t.size := length_breadthFirst_le _ _

theorem length_le_sizeList (as : List Term) : as.length ≤ sizeList as := by
  induction as with
  | nil => exact Nat.le_refl 0
  | cons a as ih =>
    have := a.size_pos
    rw [List.length_cons, sizeList]
    omega

theorem breadthFirst_induction {P : Term → Prop} (hargs : ∀ f as, P (app f as) → ∀ a ∈ as, P a) :
    ∀ {n : Nat} {queue : List Term}, (∀ t ∈ queue, P t) → ∀ u ∈ breadthFirst n queue, P u
  | 0, _, _, u, hu => absurd hu List.not_mem_nil
  | _ + 1, [], _, u, hu => absurd hu List.not_mem_nil
  | n + 1, t :: queue, h, u, hu => by
    obtain ⟨ht, hqueue⟩ := List.forall_mem_cons.1 h
    rcases List.mem_cons.1 hu with rfl | hu
    · exact ht
    · refine breadthFirst_induction hargs (List.forall_mem_append.2 ⟨hqueue, ?_⟩) u hu
      cases t with
      | var | name => exact List.forall_mem_nil _
      | app f as => exact hargs f as ht

end Term

theorem Theory.Message.subterms {T : Theory} {t : Term} (h : T.Message t) :
    ∀ u ∈ t.subterms, T.Message u :=
  Term.breadthFirst_induction (fun _ _ => args) (List.forall_mem_singleton.2 h)

/-! ## Fragments -/

theorem Exponent.length_factors_le (e : Term) : (Exponent.factors e).length ≤ e.size := by
  have hpos := e.size_pos
  unfold factors
  split
  · rename_i f as
    have hlen := Term.length_le_sizeList as
    split_ifs <;> simp [Term.size]
    omega
  · exact hpos

/-- The powers with some of the factors of the exponent. -/
def Exponent.powers : Term → List Term
  | .app f [b, e] => if f = .exp then (factors e).sublists.map fun fs => raise b (product fs) else []
  | _ => []

theorem Exponent.mem_powers {t u : Term} : u ∈ powers t ↔
    ∃ b e fs, t = .app .exp [b, e] ∧ fs.Sublist (factors e) ∧ u = raise b (product fs) := by
  unfold powers
  split
  · rename_i f b e
    split_ifs with hf
    · subst hf
      simp only [List.mem_map, List.mem_sublists]
      constructor
      · rintro ⟨fs, hfs, rfl⟩
        exact ⟨b, e, fs, rfl, hfs, rfl⟩
      · rintro ⟨b', e', fs, he, hfs, rfl⟩
        cases he
        exact ⟨fs, hfs, rfl⟩
    · simp [hf]
  · rename_i hne
    simp only [List.not_mem_nil, false_iff]
    rintro ⟨b, e, fs, rfl, -⟩
    exact hne _ _ _ rfl

theorem Exponent.length_powers_le (t : Term) : (powers t).length ≤ 2 ^ t.size := by
  unfold powers
  split
  · rename_i f b e
    split_ifs
    · rw [List.length_map, List.length_sublists]
      refine Nat.pow_le_pow_right (by omega) ((length_factors_le e).trans ?_)
      simp [Term.size, Term.sizeList]
      omega
    · simp
  · simp

namespace Theory

variable {T : Theory} {t u v : Term} {side : List Term}

/-- What can be released by a message, by what it releases and so on. -/
def fragments (T : Theory) (t : Term) : List Term :=
  t.subterms ++ if T.algebras.exponents then t.subterms.flatMap Exponent.powers else []

theorem length_fragments_le (T : Theory) (t : Term) : (T.fragments t).length ≤ 4 ^ t.size := by
  have hpowers : (t.subterms.flatMap Exponent.powers).length ≤ t.size * 2 ^ t.size := by
    rw [List.length_flatMap]
    refine (List.sum_le_card_nsmul _ (2 ^ t.size) ?_).trans ?_
    · refine List.forall_mem_map.2 fun u hu => (Exponent.length_powers_le u).trans ?_
      exact Nat.pow_le_pow_right (by omega) (Term.size_le_of_mem_subterms hu)
    · rw [List.length_map, smul_eq_mul]
      exact Nat.mul_le_mul_right _ t.length_subterms_le
  have hsize : t.size + 1 ≤ 2 ^ t.size := Nat.lt_two_pow_self
  have hfour : 4 ^ t.size = 2 ^ t.size * 2 ^ t.size := by
    rw [← Nat.mul_pow]
  have hsubterms := t.length_subterms_le
  have hproduct : (t.size + 1) * 2 ^ t.size ≤ 2 ^ t.size * 2 ^ t.size :=
    Nat.mul_le_mul_right _ hsize
  rw [Nat.succ_mul] at hproduct
  unfold fragments
  rw [List.length_append]
  split
  · omega
  · rw [List.length_nil]
    omega

theorem self_mem_fragments (T : Theory) (t : Term) : t ∈ T.fragments t :=
  List.mem_append_left _ t.mem_subterms_self

theorem Message.reduced_sublist {b e : Term} {fs : List Term} (h : T.Message (.app .exp [b, e]))
    (ha : T.algebras.exponents = true) (hfs : fs.Sublist (Exponent.factors e)) :
    Exponent.Reduced fs :=
  (((h.args e (by simp)).normal.exponent ha).reduced).subset fun _ hx => hfs.subset hx

/-- What a fragment of a message releases is a fragment of it too. -/
theorem mem_fragments_of_releases (hT : T.OfPacks) (ht : T.Message t) (hu : u ∈ T.fragments t)
    (h : T.Releases u side v) : v ∈ T.fragments t := by
  have hpower : T.algebras.exponents = true → ∀ b e fs, .app .exp [b, e] ∈ t.subterms →
      fs.Sublist (Exponent.factors e) → Exponent.raise b (Exponent.product fs) ∈ T.fragments t := by
    intro ha b e fs hmem hfs
    refine List.mem_append_right _ ?_
    rw [if_pos ha]
    exact List.mem_flatMap.2 ⟨_, hmem, Exponent.mem_powers.2 ⟨b, e, fs, rfl, hfs, rfl⟩⟩
  have hsubterm : ∀ u ∈ t.subterms, T.Releases u side v → v ∈ T.fragments t := by
    intro u hu h
    cases h with
    | rule h =>
      obtain ⟨r, i, g, as, c, ps, θ, hopens, rfl, rfl, rfl⟩ := h
      have hd : T.Destructs ((Term.app c ps).mapVars θ) _ _ :=
        ⟨r, i, g, as, c, ps, θ, hopens, rfl, rfl, rfl⟩
      rw [Term.mapVars_app] at hd hu
      exact List.mem_append_left _ (Term.args_mem_subterms hu _ (hT.shallow.mem_of_destructs hd))
    | factor ha hpick => exact hpower ha _ _ _ hu (sublist_of_mem_picks hpick)
    | inverse ha => exact List.mem_append_left _ (Term.args_mem_subterms hu _ (by simp))
    | summand ha hpick =>
      exact List.mem_append_left _ (Term.args_mem_subterms hu _ (mem_picks hpick).1)
  rcases List.mem_append.1 hu with hu | hu
  · exact hsubterm u hu h
  · split_ifs at hu with ha
    · obtain ⟨w, hw, hu⟩ := List.mem_flatMap.1 hu
      obtain ⟨b, e, fs, rfl, hfs, rfl⟩ := Exponent.mem_powers.1 hu
      unfold Exponent.raise at h
      split_ifs at h with hone
      · exact hsubterm b (Term.args_mem_subterms hw b (by simp)) h
      · cases h with
        | rule h =>
          have hfree := h.free hT.standard
          rw [Algebras.owner?_exponents ha rfl] at hfree
          cases hfree
        | @factor _ _ f rest _ hpick =>
          -- The factors left are some of those that were left before, in another order.
          have hreduced := (ht.subterms _ hw).reduced_sublist ha hfs
          have hperm := (perm_of_mem_picks hpick).symm.trans (Exponent.factors_product_perm hreduced)
          obtain ⟨fs', hfs', hsub⟩ := List.subperm_cons_self.trans hperm.subperm
          rw [← Exponent.product_eq_of_perm hfs']
          exact hpower ha b e fs' hw (hsub.trans hfs)
    · cases hu

end Theory

/-! ## Knowledge that deconstruction leaves as it is -/

theorem SortedSet.ext_contains {α : Type} [Ord α] [DecidableEq α] [Std.TransOrd α]
    [Std.LawfulEqOrd α] {s s' : SortedSet α}
    (h : ∀ a, SortedSet.contains s a = true ↔ SortedSet.contains s' a = true) : s = s' := by
  refine SortedMap.ext_get? fun a => ?_
  have ha := h a
  simp only [SortedSet.contains, SortedMap.contains] at ha
  rcases hs : s.get? a with _ | u <;> rcases hs' : s'.get? a with _ | u' <;> simp [hs, hs'] at ha ⊢

namespace Knowledge

variable {T : Theory} {K S : Knowledge} {t u : Term}

theorem ext_contains {K L : Knowledge} (h : ∀ t, K.contains t = true ↔ L.contains t = true) : K = L := by
  obtain ⟨K⟩ := K
  obtain ⟨L⟩ := L
  exact congrArg mk (SortedSet.ext_contains h)

theorem Opens.mono (h : K.Opens T t u) (hle : ∀ t, K.contains t = true → S.contains t = true) :
    S.Opens T t u := by
  obtain ⟨side, hreleases, hside⟩ := h
  exact ⟨side, hreleases, fun a ha => derivable_mono hle (hside a ha)⟩

/-- Everything that is known is a message. -/
def Messages (T : Theory) (K : Knowledge) : Prop := ∀ t, K.contains t = true → T.Message t

/-- Nothing that a known message releases is missing. -/
def Saturated (T : Theory) (K : Knowledge) : Prop :=
  ∀ t u, K.contains t = true → K.Opens T t u → K.contains u = true

/-! ## Rounds of deconstruction -/

theorem messages_insert (hK : K.Messages T) (ht : T.Message t) : (K.insert t).Messages T := by
  intro u hu
  rw [contains_insert, Bool.or_eq_true, beq_iff_eq] at hu
  rcases hu with rfl | hu
  · exact ht
  · exact hK u hu

theorem contains_foldl_insert : ∀ {us : List Term} {K : Knowledge},
    (us.foldl insert K).contains t = true ↔ t ∈ us ∨ K.contains t = true
  | [], _ => by simp
  | u :: us, K => by
    rw [List.foldl_cons, contains_foldl_insert, contains_insert, Bool.or_eq_true, beq_iff_eq,
      List.mem_cons, or_assoc, or_left_comm]

theorem rounds_eq (K : Knowledge) :
    K.rounds = (K.toList.map fun t => 4 ^ t.size).sum + spareRounds := by
  unfold rounds
  induction K.toList with
  | nil => rw [List.foldr_nil, List.map_nil, List.sum_nil, Nat.zero_add]
  | cons t ts ih =>
    rw [List.foldr_cons, ih, List.map_cons, List.sum_cons, Nat.add_assoc]
    rfl

theorem length_fragments_le (K : Knowledge) :
    (K.toList.flatMap T.fragments).length ≤ K.rounds := by
  rw [rounds_eq, List.length_flatMap]
  exact (List.sum_le_sum fun t _ => T.length_fragments_le t).trans (Nat.le_add_right _ _)

theorem countP_lt_of_mem {α : Type} {p q : α → Bool} {l : List α} {a : α}
    (h : ∀ x ∈ l, p x = true → q x = true) (ha : a ∈ l) (hq : q a = true) (hp : p a = false) :
    l.countP p < l.countP q := by
  obtain ⟨l₁, l₂, rfl⟩ := List.append_of_mem ha
  have h₁ : l₁.countP p ≤ l₁.countP q := List.countP_mono_left fun x hx => h x (by simp [hx])
  have h₂ : l₂.countP p ≤ l₂.countP q := List.countP_mono_left fun x hx => h x (by simp [hx])
  simp only [List.countP_append, List.countP_cons, hp, hq]
  simp
  omega

/-- Deconstruction is repeated until nothing new is learned, with no bound on the rounds, and ends
with the given knowledge. -/
inductive Analyses (T : Theory) : Knowledge → VarSupply → Knowledge → Prop
  | done {K : Knowledge} {s s' : VarSupply} (nothing : (K.deconstruct T).run s = ([], s')) :
      Analyses T K s K
  | more {K : Knowledge} {s s' : VarSupply} {learned : List Term} {K' : Knowledge}
      (some : (K.deconstruct T).run s = (learned, s')) (new : learned ≠ [])
      (rest : Analyses T (learned.foldl insert K) s' K') : Analyses T K s K'

/-- The adversary observes a term, and learning ends with the given knowledge. -/
inductive Learns (T : Theory) (K : Knowledge) (t : Term) : Knowledge → Prop
  | known (known : K.contains (T.normalize t) = true) : Learns T K t K
  | new {K' : Knowledge} (new : K.contains (T.normalize t) = false)
      (ends : (K.insert (T.normalize t)).Analyses T {} K') : Learns T K t K'

section Learning

variable (hT : T.OfPacks) {I : Knowledge → Prop} (hstep : ∀ K u, K.Messages T → I K →
  (∃ t, K.contains t = true ∧ K.Opens T t u) → I (K.insert u))

include hT

section Induction

include hstep

theorem foldl_insert_induction : ∀ {us : List Term} {K : Knowledge}, K.Messages T → I K →
    (∀ u ∈ us, ∃ t, K.contains t = true ∧ K.Opens T t u) →
      (us.foldl insert K).Messages T ∧ I (us.foldl insert K)
  | [], _, hK, h, _ => ⟨hK, h⟩
  | u :: us, K, hK, h, hus => by
    obtain ⟨hu, hus⟩ := List.forall_mem_cons.1 hus
    have hle : ∀ t, K.contains t = true → (K.insert u).contains t = true := fun t ht => by
      simp [contains_insert, ht]
    have hmessage : T.Message u := by
      obtain ⟨t, ht, side, hreleases, -⟩ := hu
      exact (hreleases.message hT (hK t ht)).1
    rw [List.foldl_cons]
    refine foldl_insert_induction (messages_insert hK hmessage) (hstep K u hK h hu) fun v hv => ?_
    obtain ⟨t, ht, hopens⟩ := hus v hv
    exact ⟨t, hle t ht, hopens.mono hle⟩

/-- What is kept when something released is added is kept by deconstruction. -/
theorem analyse_induction : ∀ {n : Nat} {K : Knowledge} {s : VarSupply}, K.Messages T → I K →
    (analyse T n K s).Messages T ∧ I (analyse T n K s)
  | 0, _, _, hK, h => ⟨hK, h⟩
  | n + 1, K, s, hK, h => by
    unfold analyse
    split
    · exact ⟨hK, h⟩
    · rename_i learned supply hne hrun
      have hlearned : ∀ u ∈ learned, ∃ t, K.contains t = true ∧ K.Opens T t u := fun u hu =>
        ((mem_deconstruct hT hK s).1 (by rw [hrun]; exact hu)).2
      obtain ⟨hK', h'⟩ := foldl_insert_induction hT hstep hK h hlearned
      exact analyse_induction hK' h'

/-- What is kept when something observed or released is added is kept by learning. -/
theorem learn_induction (hK : K.Messages T) (ht : T.Message (T.normalize t))
    (h : I (K.insert (T.normalize t))) : (K.learn T t).Messages T ∧ I (K.learn T t) := by
  have hinsert := messages_insert hK ht
  unfold learn
  simp only
  split
  · rename_i hknown
    have hsame : K.insert (T.normalize t) = K := ext_contains fun u => by
      rw [contains_insert, Bool.or_eq_true, beq_iff_eq, or_iff_right_iff_imp]
      rintro rfl
      exact hknown
    rw [hsame] at h
    exact ⟨hK, h⟩
  · exact analyse_induction hT hstep hinsert h

end Induction

/-- Deconstruction ends by itself if there are rounds enough for everything that can be released. -/
theorem analyses_analyse {F : List Term} (hF : ∀ t ∈ F, ∀ side u, T.Releases t side u → u ∈ F) :
    ∀ {n : Nat} {K : Knowledge} {s : VarSupply}, K.Messages T →
      (∀ t, K.contains t = true → t ∈ F) → F.countP (fun t => !K.contains t) ≤ n →
        K.Analyses T s (analyse T n K s)
  | 0, K, s, hK, hsub, hn => by
    have hmem := fun u => mem_deconstruct (u := u) hT hK s
    rw [Nat.le_zero, List.countP_eq_zero] at hn
    -- Everything that could be learned is known, so the first round finds nothing.
    have hnothing : ((K.deconstruct T).run s).1 = [] := by
      refine List.eq_nil_iff_forall_not_mem.2 fun u hu => ?_
      obtain ⟨hnew, t, ht, side, hreleases, -⟩ := (hmem u).1 hu
      have hknown := hn u (hF t (hsub t ht) side u hreleases)
      simp [hnew] at hknown
    exact .done (Prod.ext hnothing rfl)
  | n + 1, K, s, hK, hsub, hn => by
    have hmem := fun u => mem_deconstruct (u := u) hT hK s
    unfold analyse
    split
    · rename_i hrun
      exact .done hrun
    · rename_i learned supply hne hrun
      rw [hrun] at hmem
      have hlearned : ∀ u ∈ learned, u ∈ F := fun u hu => by
        obtain ⟨-, t, ht, side, hreleases, -⟩ := (hmem u).1 hu
        exact hF t (hsub t ht) side u hreleases
      obtain ⟨hK', -⟩ := foldl_insert_induction (I := fun _ => True) hT (fun _ _ _ _ _ => trivial) hK
        trivial fun u hu => ((hmem u).1 hu).2
      refine .more hrun hne (analyses_analyse hF hK' (fun t ht => ?_) ?_)
      · exact (contains_foldl_insert.1 ht).elim (hlearned t) (hsub t)
      · -- Something learned is no longer missing.
        obtain ⟨u, hu⟩ := List.exists_mem_of_ne_nil learned hne
        have hnew := ((hmem u).1 hu).1
        refine Nat.le_of_lt_succ (Nat.lt_of_lt_of_le (countP_lt_of_mem (fun t _ ht => ?_)
          (hlearned u hu) (by simp [hnew]) (by simp [contains_foldl_insert.2 (.inl hu)])) hn)
        rw [Bool.not_eq_true', ← Bool.not_eq_true, contains_foldl_insert, not_or] at ht
        simpa using ht.2

theorem Analyses.saturated {s : VarSupply} {K' : Knowledge} (h : K.Analyses T s K')
    (hK : K.Messages T) : K'.Saturated T := by
  induction h with
  | @done K s s' nothing =>
    intro t u ht hopens
    by_contra hnew
    have hu := (mem_deconstruct hT hK s).2 ⟨by simpa using hnew, t, ht, hopens⟩
    rw [nothing] at hu
    exact List.not_mem_nil hu
  | @more K s s' learned K' some new _ ih =>
    refine ih (foldl_insert_induction (I := fun _ => True) hT (fun _ _ _ _ _ => trivial) hK
      trivial fun u hu => ?_).1
    exact ((mem_deconstruct hT hK s).1 (by rw [some]; exact hu)).2

/-- The rounds that learning allows are enough. -/
theorem learns_learn (hK : K.Messages T) (ht : T.Message (T.normalize t)) :
    K.Learns T t (K.learn T t) := by
  unfold Knowledge.learn
  simp only
  split
  · rename_i hknown
    exact .known hknown
  · rename_i hnew
    have hinsert := messages_insert hK ht
    have hmem : ∀ u, u ∈ (K.insert (T.normalize t)).toList ↔
        (K.insert (T.normalize t)).contains u = true := fun u =>
      SortedSet.contains_iff_mem_toList.symm
    refine .new (by simpa using hnew) (analyses_analyse
      (F := (K.insert (T.normalize t)).toList.flatMap T.fragments) hT (fun u hu side v hv => ?_)
      hinsert (fun u hu => ?_) (List.countP_le_length.trans (length_fragments_le _)))
    · obtain ⟨w, hw, hu⟩ := List.mem_flatMap.1 hu
      exact List.mem_flatMap.2
        ⟨w, hw, Theory.mem_fragments_of_releases hT (hinsert w ((hmem w).1 hw)) hu hv⟩
    · exact List.mem_flatMap.2 ⟨u, (hmem u).2 hu, T.self_mem_fragments u⟩

theorem Learns.saturated {K' : Knowledge} (h : K.Learns T t K') (hs : K.Saturated T)
    (hK : K.Messages T) (ht : T.Message (T.normalize t)) : K'.Saturated T := by
  cases h with
  | known => exact hs
  | new _ ends => exact ends.saturated hT (messages_insert hK ht)

theorem Saturated.learn (h : K.Saturated T) (hK : K.Messages T) (ht : T.Message (T.normalize t)) :
    (K.learn T t).Saturated T :=
  (learns_learn hT hK ht).saturated hT h hK ht

end Learning

theorem contains_learn_self : (K.learn T t).contains (T.normalize t) = true := by
  unfold learn
  simp only
  split
  · assumption
  · exact contains_analyse (by simp [contains_insert])

/-! ## Sequences of observations -/

/-- What is known after a sequence of observations. -/
def learnAll (T : Theory) (ts : List Term) : Knowledge := ts.foldl (fun K t => K.learn T t) {}

section Sequences

variable (hT : T.OfPacks) {ts us : List Term} (hts : ∀ t ∈ ts, T.Message (T.normalize t))

theorem learnAll_append (ts : List Term) (t : Term) :
    learnAll T (ts ++ [t]) = (learnAll T ts).learn T t := by
  rw [learnAll, learnAll, List.foldl_append]
  rfl

theorem contains_learnAll (h : t ∈ ts) : (learnAll T ts).contains (T.normalize t) = true := by
  obtain ⟨before, after, rfl⟩ := List.append_of_mem h
  rw [learnAll, List.foldl_append, List.foldl_cons]
  exact contains_foldl (fun K u hK => contains_learn hK) after contains_learn_self

include hT hts

/-- What is true of all observations, and of what is released by messages of which it is true, is
true of everything that is known. -/
theorem forall_contains_learnAll {P : Term → Prop} (hobserved : ∀ t ∈ ts, P (T.normalize t))
    (hreleased : ∀ (K : Knowledge) (u : Term), K.Messages T → (∀ t, K.contains t = true → P t) →
      (∃ t, K.contains t = true ∧ K.Opens T t u) → P u) :
    (learnAll T ts).Messages T ∧ ∀ u, (learnAll T ts).contains u = true → P u := by
  have hinsert : ∀ (K : Knowledge) (t : Term), (∀ u, K.contains u = true → P u) → P t →
      ∀ u, (K.insert t).contains u = true → P u := by
    intro K t hK ht u hu
    rw [contains_insert, Bool.or_eq_true, beq_iff_eq] at hu
    rcases hu with rfl | hu
    · exact ht
    · exact hK u hu
  induction ts using List.reverseRecOn with
  | nil => exact ⟨fun t ht => (by cases ht), fun t ht => by cases ht⟩
  | append_singleton ts t ih =>
    rw [List.forall_mem_append, List.forall_mem_singleton] at hts hobserved
    obtain ⟨hmessages, h⟩ := ih hts.1 hobserved.1
    rw [learnAll_append]
    exact learn_induction hT (fun K u hK h hu => hinsert K u h (hreleased K u hK h hu)) hmessages hts.2
      (hinsert _ _ h hobserved.2)

theorem messages_learnAll : (learnAll T ts).Messages T :=
  (forall_contains_learnAll (P := fun _ => True) hT hts (fun _ _ => trivial)
    fun _ _ _ _ _ => trivial).1

theorem exists_mem_fragments (h : (learnAll T ts).contains u = true) :
    ∃ t ∈ ts, u ∈ T.fragments (T.normalize t) := by
  refine (forall_contains_learnAll (P := fun u => ∃ t ∈ ts, u ∈ T.fragments (T.normalize t)) hT hts
    (fun t ht => ⟨t, ht, T.self_mem_fragments _⟩) fun K v _ hK hv => ?_).2 u h
  obtain ⟨w, hw, side, hreleases, -⟩ := hv
  obtain ⟨t, ht, hmem⟩ := hK w hw
  exact ⟨t, ht, Theory.mem_fragments_of_releases hT (hts t ht) hmem hreleases⟩

theorem saturated_learnAll : (learnAll T ts).Saturated T := by
  induction ts using List.reverseRecOn with
  | nil => exact fun t u ht => by cases ht
  | append_singleton ts t ih =>
    rw [List.forall_mem_append, List.forall_mem_singleton] at hts
    rw [learnAll_append]
    exact (ih hts.1).learn hT (messages_learnAll hT hts.1) hts.2

/-- What is known is part of every saturated knowledge with what was observed. -/
theorem contains_of_learnAll (hS : S.Saturated T)
    (h : ∀ t ∈ ts, S.contains (T.normalize t) = true) :
    ∀ u, (learnAll T ts).contains u = true → S.contains u = true := by
  refine (forall_contains_learnAll hT hts h fun K u _ hle hu => ?_).2
  obtain ⟨t, ht, hopens⟩ := hu
  exact hS t u (hle t ht) (hopens.mono hle)

/-- The order of the observations does not matter. -/
theorem learnAll_perm (hp : ts.Perm us) : learnAll T ts = learnAll T us := by
  have hus : ∀ t ∈ us, T.Message (T.normalize t) := fun t ht => hts t (hp.mem_iff.2 ht)
  refine ext_contains fun u => ⟨?_, ?_⟩
  · exact contains_of_learnAll hT hts (saturated_learnAll hT hus)
      (fun t ht => contains_learnAll (hp.mem_iff.1 ht)) u
  · exact contains_of_learnAll hT hus (saturated_learnAll hT hts)
      (fun t ht => contains_learnAll (hp.mem_iff.2 ht)) u

end Sequences

end Knowledge

/-! ## What is learned -/

/-- A part of a message is a subterm, or a power in one with some of the factors of its exponent. -/
def Term.PartOf (u t : Term) : Prop :=
  u ∈ t.subterms ∨ ∃ b p q, u = .app .exp [b, p] ∧ .app .exp [b, q] ∈ t.subterms ∧
    (Exponent.factors p).Subperm (Exponent.factors q)

theorem Theory.Message.partOf_of_mem_fragments {T : Theory} {t u : Term} (ht : T.Message t)
    (h : u ∈ T.fragments t) : u.PartOf t := by
  rcases List.mem_append.1 h with h | h
  · exact .inl h
  split_ifs at h with ha
  · obtain ⟨w, hw, hu⟩ := List.mem_flatMap.1 h
    obtain ⟨b, q, fs, rfl, hfs, rfl⟩ := Exponent.mem_powers.1 hu
    have hreduced := (ht.subterms _ hw).reduced_sublist ha hfs
    unfold Exponent.raise
    split_ifs with hone
    -- With no factor left the power is its base.
    · exact .inl (Term.args_mem_subterms hw b (by simp))
    · exact .inr ⟨b, _, q, rfl, hw, (Exponent.factors_product_perm hreduced).subperm.trans hfs.subperm⟩
  · cases h

/-- Whatever ground terms were observed before, deconstruction ends when one more is, and has taken
nothing but parts out of what was observed. The terms respect the arities (`Theory.Flat`), as
compilation checks. -/
theorem learning_ends_with_parts {pack : Pack} {sig : Signature} {T : Theory} (hp : Assembled pack sig)
    (hT : Theory.ofRules sig pack.equations pack.algebras = .ok T) {ts : List Term}
    (hts : ∀ t ∈ ts, T.Flat t ∧ t.isGround = true) {t : Term} (ht : T.Flat t)
    (hground : t.isGround = true) {K : Knowledge}
    (hK : K = ts.foldl (fun K t => K.learn T t) ({} : Knowledge)) :
    K.Learns T t (K.learn T t) ∧
      ∀ u, (K.learn T t).contains u = true → ∃ o ∈ ts ++ [t], u.PartOf (T.normalize o) := by
  have hpacks := hp.ofPacks hT
  have hobserved : ∀ o ∈ ts ++ [t], T.Message (T.normalize o) := by
    intro o ho
    rcases List.mem_append.1 ho with ho | ho
    · exact hpacks.standard.message_normalize (hts o ho).1 (hts o ho).2
    · rw [List.mem_singleton.1 ho]
      exact hpacks.standard.message_normalize ht hground
  obtain ⟨hbefore, hlast⟩ := List.forall_mem_append.1 hobserved
  rw [show K = Knowledge.learnAll T ts from hK]
  refine ⟨Knowledge.learns_learn hpacks (Knowledge.messages_learnAll hpacks hbefore)
    (hlast t (List.mem_singleton_self t)), fun u hu => ?_⟩
  rw [← Knowledge.learnAll_append] at hu
  obtain ⟨o, ho, hmem⟩ := Knowledge.exists_mem_fragments hpacks hobserved hu
  exact ⟨o, ho, (hobserved o ho).partOf_of_mem_fragments hmem⟩

/-- A known factor is taken out of the exponent of a power, and what is left was not seen before. -/
theorem learning_ends_with_parts_power :
    let k : Term := .name (.fresh "k" 0)
    let x : Term := .name (.fresh "x" 1)
    let y : Term := .name (.fresh "y" 2)
    let power : Term := .app .exp [.pubName "g", .app .mult [k, x, y]]
    let rest : Term := .app .exp [.pubName "g", .app .mult [x, y]]
    let K := [k].foldl (fun K t => K.learn agreementTheory t) ({} : Knowledge)
    let K' := K.learn agreementTheory power
    K.Learns agreementTheory power K' ∧ K'.contains rest = true ∧ rest ∉ power.subterms ∧
      ∀ u, K'.contains u = true → ∃ o ∈ [k, power], u.PartOf (agreementTheory.normalize o) := by
  intro k x y power rest K K'
  have hflat : ∀ t ∈ [k], agreementTheory.Flat t ∧ t.isGround = true := by decide
  obtain ⟨hends, hparts⟩ := learning_ends_with_parts assembled_agreement rfl hflat
    (t := power) (by decide) rfl rfl
  exact ⟨hends, by decide +kernel, by decide, hparts⟩

end ProtocolProver
