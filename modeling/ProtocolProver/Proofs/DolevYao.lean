import ProtocolProver.Proofs.SaturatedKnowledge

/-!
# Completeness without algebras

In a theory without algebras the adversary finds everything that public symbols and destructors give.
To apply a destructor is never needed in a construction: it takes apart a known message, and then its
output is known because knowledge is saturated, or one that was built, and then its output was one of
the parts (`derivable_reduce`). What else a destructor needs are parts of the message that it opens, so
these do not nest deeper than what was observed (`nesting_of_contains`).
-/

namespace ProtocolProver

/-! ## Nesting -/

namespace Term

mutual

/-- How many applications are nested in a term. -/
def nesting : Term → Nat
  | .app _ as => nestingList as + 1
  | _ => 0

def nestingList : List Term → Nat
  | [] => 0
  | a :: as => max (nesting a) (nestingList as)

end

theorem nesting_le_nestingList {as : List Term} : ∀ a ∈ as, a.nesting ≤ nestingList as := by
  induction as with
  | nil => exact List.forall_mem_nil _
  | cons b as ih =>
    refine List.forall_mem_cons.2 ⟨Nat.le_max_left .., fun a ha => ?_⟩
    exact (ih a ha).trans (Nat.le_max_right ..)

theorem nesting_lt {f : Symbol} {as : List Term} : ∀ a ∈ as, a.nesting < (app f as).nesting :=
  fun a ha => Nat.lt_succ_of_le (nesting_le_nestingList a ha)

theorem nesting_le_mapVars {t : Term} {θ : Var → Term} :
    ∀ v ∈ t.occurrences, (θ v).nesting ≤ (t.mapVars θ).nesting := by
  induction t using induction_args with
  | var w =>
    intro v hv
    rw [occurrences, List.mem_singleton] at hv
    rw [hv]
    exact Nat.le_refl _
  | name n =>
    intro v hv
    cases hv
  | app f as ih =>
    intro v hv
    obtain ⟨a, ha, hv⟩ := mem_occurrences_app.1 hv
    rw [mapVars_app]
    exact (ih a ha v hv).trans (nesting_lt _ (List.mem_map_of_mem ha)).le

end Term

/-! ## Destructors -/

namespace Theory

/-- The rule for a public symbol gives a public constant, or opens an argument with the help of values
that this argument has. -/
def Opening (T : Theory) : Prop := ∀ r ∈ T.rules, ∀ g as, r.lhs = .app g as →
  T.signature.isPublic g = true →
    (∃ c, r.rhs = .const c ∧ T.signature.isPublic c = true) ∨
      ∃ i c ps, T.Opens r i g as c ps ∧ ∀ a ∈ as.eraseIdx i, ∃ v, a = .var v

variable {T : Theory} {t u : Term} {side : List Term}

theorem Free.destructs (hfree : T.Free) (h : T.Releases t side u) : T.Destructs t side u := by
  cases h with
  | rule h => exact h
  | factor ha => cases (hfree .exp).symm.trans (Algebras.owner?_exponents ha rfl)
  | inverse ha => cases (hfree .inv).symm.trans (Algebras.owner?_exponents ha rfl)
  | summand hx => cases (hfree .xor).symm.trans (Algebras.owner?_xor hx rfl)

theorem Free.mem_decompose (hfree : T.Free) {f : Symbol} {as parts : List Term} :
    parts ∈ T.decompose (.app f as) ↔ T.signature.isPublic f = true ∧ parts = as := by
  simp only [decompose, hfree f]
  split <;> simp_all

end Theory

theorem Assembled.opening {pack : Pack} {T : Theory} (hp : Assembled pack T.signature)
    (hT : T.rules = Reduction.projections ++ pack.equations) : T.Opening := by
  intro r hr g as hlhs hpublic
  rcases List.mem_append.1 (hT ▸ hr) with hmem | hmem
  · simp only [Reduction.projections, List.mem_cons, List.not_mem_nil, or_false] at hmem
    rcases hmem with rfl | rfl
    all_goals
      cases hlhs
      exact .inr ⟨0, _, _, ⟨hr, rfl, rfl, hpublic, rfl⟩, by simp⟩
  · rcases hp.rules r hmem with ⟨-, -, -, hok⟩ | _ | _ | _
    · refine .inl ⟨_, rfl, ?_⟩
      rw [Signature.isPublic, hok]
      rfl
    all_goals
      cases hlhs
      exact .inr ⟨0, _, _, ⟨hr, rfl, rfl, hpublic, rfl⟩, by simp⟩

namespace Knowledge

variable {T : Theory} {K : Knowledge} {t u : Term} {ts : List Term}

/-! ## Construction -/

section Free

variable (hfree : T.Free)

include hfree

/-- A term is built with as many levels as it has. -/
theorem derivable_nesting : ∀ {n : Nat} {t : Term}, K.derivable T n t = true →
    K.derivable T t.nesting t = true
  | n, t, h => by
    rcases derivable_iff.1 h with h | h | ⟨f, as, parts, m, rfl, rfl, hparts, hall⟩
    · exact derivable_of_contains h
    · exact derivable_iff.2 (.inr (.inl h))
    · obtain ⟨-, rfl⟩ := hfree.mem_decompose.1 hparts
      exact derivable_of_decompose hparts fun p hp =>
        derivable_le (derivable_nesting (hall p hp)) (Term.nesting_le_nestingList p hp)

theorem derivable_app {f : Symbol} {as : List Term} (hf : T.signature.isPublic f = true)
    (h : ∀ a ∈ as, K.derivable T a.nesting a = true) :
    K.derivable T (Term.app f as).nesting (.app f as) = true :=
  derivable_of_decompose (hfree.mem_decompose.2 ⟨hf, rfl⟩) fun a ha =>
    derivable_le (h a ha) (Term.nesting_le_nestingList a ha)

variable (hT : T.OfPacks)

include hT

/-- Nothing that is known nests deeper than what was observed. -/
theorem nesting_of_contains {n : Nat} (hts : ∀ t ∈ ts, T.Message (T.normalize t))
    (hn : ∀ t ∈ ts, (T.normalize t).nesting ≤ n) :
    ∀ u, (learnAll T ts).contains u = true → u.nesting ≤ n := by
  refine (forall_contains_learnAll hT hts hn fun K u _ hK hu => ?_).2
  obtain ⟨t, ht, side, hreleases, -⟩ := hu
  obtain ⟨f, as, rfl⟩ : ∃ f as, t = .app f as := by
    obtain ⟨r, i, g, as, c, ps, θ, -, rfl, -⟩ := hfree.destructs hreleases
    exact ⟨c, _, Term.mapVars_app ..⟩
  exact (Term.nesting_lt u (hT.shallow.mem_of_destructs (hfree.destructs hreleases))).le.trans
    (hK _ ht)

variable (hopening : T.Opening)

include hopening

/-- What a public symbol makes of derivable messages is derivable. -/
theorem derivable_reduce (hsaturated : K.Saturated T)
    (hK : ∀ t, K.contains t = true → t.nesting ≤ maxConstructionDepth) {f : Symbol} {as : List Term}
    (hf : T.signature.isPublic f = true) (has : ∀ a ∈ as, K.derivable T a.nesting a = true) :
    K.derivable T (T.reduce Theory.reductionLimit f as).nesting
      (T.reduce Theory.reductionLimit f as) = true := by
  rcases hT.standard.reduce_cases (hfree f) as _ with ⟨r, hr, θ, hl, he⟩ | ⟨-, he⟩
  · -- A rule applies, so its symbol is `f`.
    have hreduce : T.reduce Theory.reductionLimit f as = r.rhs.mapVars θ := he
    obtain ⟨g, ps, hlhs, -⟩ := (hT.standard.rule r hr).lhs
    rw [hlhs, Term.mapVars_app] at hl
    cases hl
    rw [hreduce]
    rcases hopening r hr f ps hlhs hf with ⟨c, hrhs, hc⟩ | ⟨i, c, qs, hopens, hside⟩
    · rw [hrhs]
      exact derivable_app hfree hc (List.forall_mem_nil _)
    · have hdestructs : T.Destructs ((Term.app c qs).mapVars θ)
          ((ps.eraseIdx i).map (Term.mapVars θ)) (r.rhs.mapVars θ) :=
        ⟨r, i, f, ps, c, qs, θ, hopens, rfl, rfl, rfl⟩
      have hopened := has _ (List.mem_map_of_mem (List.mem_of_getElem? hopens.arg))
      rw [Term.mapVars_app] at hdestructs hopened
      rcases derivable_iff.1 hopened with h | ⟨name, h⟩ | ⟨f', as', parts, m, -, h, hparts, hall⟩
      · -- The message that is opened is known, and the other arguments are values in it.
        refine derivable_of_contains (hsaturated _ _ h ⟨_, .rule hdestructs, ?_⟩)
        refine List.forall_mem_map.2 fun a ha => ?_
        have hmem := List.mem_of_mem_eraseIdx ha
        obtain ⟨v, rfl⟩ := hside a ha
        refine derivable_le (has _ (List.mem_map_of_mem hmem)) (le_trans ?_ (hK _ h))
        have hv : v ∈ (Term.app c qs).occurrences := by
          refine hT.shallow.bound hopens v ?_
          rw [hlhs]
          exact Term.mem_occurrences_app.2 ⟨_, hmem, by simp [Term.occurrences]⟩
        have hle := Term.nesting_le_mapVars (θ := θ) v hv
        rwa [Term.mapVars_app] at hle
      · cases h
      · -- It was built, and the output is one of the parts.
        cases h
        obtain ⟨-, rfl⟩ := hfree.mem_decompose.1 hparts
        exact derivable_nesting hfree (hall _ (hT.shallow.mem_of_destructs hdestructs))
  · have hreduce : T.reduce Theory.reductionLimit f as = .app f as := he
    rw [hreduce]
    exact derivable_app hfree hf has

end Free

end Knowledge

/-! ## The closure -/

/-- The least set of terms with the observed terms and the public names that is closed under public
symbols and normal forms. -/
inductive Theory.Closure (T : Theory) (ts : List Term) : Term → Prop
  | observed {t : Term} : t ∈ ts → T.Closure ts t
  | pub (name : String) : T.Closure ts (.name (.pub name))
  | app {f : Symbol} {as : List Term} : T.signature.isPublic f = true →
      as.length = T.signature.arity f → (∀ a ∈ as, T.Closure ts a) → T.Closure ts (.app f as)
  | normalize {t : Term} : T.Closure ts t → T.Closure ts (T.normalize t)

/-- The closure has well-formed ground terms only, and their normal forms are derivable. -/
theorem Knowledge.derivable_of_closure {T : Theory} {ts : List Term} {u : Term} (hT : T.OfPacks)
    (hfree : T.Free) (hopening : T.Opening) (hts : ∀ t ∈ ts, T.Flat t ∧ t.isGround = true)
    (hnesting : ∀ t ∈ ts, (T.normalize t).nesting ≤ maxConstructionDepth) (h : T.Closure ts u) :
    (T.Flat u ∧ u.isGround = true) ∧
      (learnAll T ts).derivable T (T.normalize u).nesting (T.normalize u) = true := by
  have hmessages : ∀ t ∈ ts, T.Message (T.normalize t) := fun t ht =>
    hT.standard.message_normalize (hts t ht).1 (hts t ht).2
  induction h with
  | @observed t ht => exact ⟨hts t ht, derivable_of_contains (contains_learnAll ht)⟩
  | pub name => exact ⟨⟨.name trivial, rfl⟩, derivable_iff.2 (.inr (.inl ⟨name, rfl⟩))⟩
  | @app f as hf hlen _ ih =>
    refine ⟨⟨.app ?_ fun a ha => (ih a ha).1.1, Term.isGround_app.2 fun a ha => (ih a ha).1.2⟩, ?_⟩
    · simpa [Theory.flatShape, Theory.Standard.isAssoc_of_free (hfree f)] using hlen
    · rw [Theory.normalize_app]
      exact derivable_reduce hfree hT hopening (saturated_learnAll hT hmessages)
        (nesting_of_contains hfree hT hmessages hnesting) hf
        (List.forall_mem_map.2 fun a ha => (ih a ha).2)
  | normalize _ ih =>
    have hmessage := hT.standard.message_normalize ih.1.1 ih.1.2
    rw [hmessage.normal.normalize]
    exact ⟨⟨hT.standard.flat_of_normal hmessage.normal, hmessage.ground⟩, ih.2⟩

/-- Without algebras, the adversary derives all of the closure of what was observed, if the terms nest
no deeper than construction goes and respect the arities (`Theory.Flat`), as compilation checks. -/
theorem derives_of_closure {pack : Pack} {sig : Signature} {T : Theory} (hp : Assembled pack sig)
    (hT : Theory.ofRules sig pack.equations pack.algebras = .ok T) (hfree : pack.algebras = {})
    {ts : List Term} (hts : ∀ t ∈ ts, T.Flat t ∧ t.isGround = true)
    (hnesting : ∀ t ∈ ts, (T.normalize t).nesting ≤ 16) {t : Term} (hflat : T.Flat t)
    (hground : t.isGround = true) (ht : (T.normalize t).nesting ≤ 16)
    (h : T.Closure ts (T.normalize t)) :
    (ts.foldl (fun K t => K.learn T t) ({} : Knowledge)).derives T t = true := by
  have hpacks := hp.ofPacks hT
  have htheory : T.Free ∧ T.Opening := by
    obtain rfl := Theory.ofRules_eq_ok hT
    exact ⟨Theory.free_of_algebras hfree, hp.opening rfl⟩
  have hderivable := (Knowledge.derivable_of_closure hpacks htheory.1 htheory.2 hts hnesting h).2
  rw [(hpacks.standard.message_normalize hflat hground).normal.normalize] at hderivable
  exact Knowledge.derivable_le hderivable ht

/-- Both kinds of encryption and a private function. -/
def deliverySignature : Signature :=
  ⟨Signature.builtin.symbols ++ [⟨"senc", 2, .pub⟩, ⟨"sdec", 2, .pub⟩, ⟨"aenc", 2, .pub⟩,
    ⟨"adec", 2, .pub⟩, ⟨"pk", 1, .pub⟩, ⟨"seed", 1, .priv⟩]⟩

def deliveryPack : Pack where
  equations :=
    [⟨"sdec", .app ⟨11⟩ [.app ⟨10⟩ [.var (.msg "m"), .var (.msg "k")], .var (.msg "k")],
        .var (.msg "m")⟩,
      ⟨"adec", .app ⟨13⟩ [.app ⟨12⟩ [.var (.msg "m"), .app ⟨14⟩ [.var (.msg "k")]], .var (.msg "k")],
        .var (.msg "m")⟩]

def deliveryTheory : Theory :=
  ⟨deliverySignature, deliveryPack.algebras, Reduction.projections ++ deliveryPack.equations⟩

/-- A message that is locked, its key for the holder of a seed, and the seed. -/
def deliveryObservations : List Term :=
  let k : Term := .name (.fresh "k" 0)
  let seed : Term := .app ⟨15⟩ [.pubName "b"]
  [.app ⟨10⟩ [.name (.fresh "x" 1), .pair k (.pubName "a")], .app ⟨12⟩ [k, .app ⟨14⟩ [seed]], seed]

/-- The message is unlocked with the key that the seed opens. -/
theorem derives_of_closure_delivery :
    let seed : Term := .app ⟨15⟩ [.pubName "b"]
    let key : Term := .app ⟨13⟩ [.app ⟨12⟩ [.name (.fresh "k" 0), .app ⟨14⟩ [seed]], seed]
    let opened : Term := .app ⟨11⟩ [.app ⟨10⟩ [.name (.fresh "x" 1), .pair (.name (.fresh "k" 0))
      (.pubName "a")], .pair key (.pubName "a")]
    deliveryTheory.Closure deliveryObservations (deliveryTheory.normalize opened) ∧
      deliveryTheory.normalize opened = .name (.fresh "x" 1) ∧
        (deliveryObservations.foldl (fun K t => K.learn deliveryTheory t)
          ({} : Knowledge)).derives deliveryTheory opened = true := by
  intro seed key opened
  have hp : Assembled deliveryPack deliverySignature :=
    @Assembled.declare _ _ _ "seed" 1 .priv _
      (@Assembled.load _ _ _ _ "asymmetric-encryption"
        (@Assembled.load _ _ _ _ "symmetric-encryption" .builtin rfl) rfl) rfl
  have hflat : ∀ t ∈ deliveryObservations, deliveryTheory.Flat t ∧ t.isGround = true := by decide
  have hnesting : ∀ t ∈ deliveryObservations, (deliveryTheory.normalize t).nesting ≤ 16 := by decide
  have hclosure : deliveryTheory.Closure deliveryObservations opened := by
    have hobserved : ∀ t ∈ deliveryObservations, deliveryTheory.Closure deliveryObservations t :=
      fun _ => .observed
    have hkey : deliveryTheory.Closure deliveryObservations key :=
      .app rfl rfl (List.forall_mem_cons.2 ⟨hobserved _ (by decide),
        List.forall_mem_singleton.2 (hobserved _ (by decide))⟩)
    have hpair : deliveryTheory.Closure deliveryObservations (.pair key (.pubName "a")) :=
      .app rfl rfl (List.forall_mem_cons.2 ⟨hkey, List.forall_mem_singleton.2 (.pub "a")⟩)
    exact .app rfl rfl (List.forall_mem_cons.2 ⟨hobserved _ (by decide),
      List.forall_mem_singleton.2 hpair⟩)
  have hopened : deliveryTheory.normalize opened = .name (.fresh "x" 1) := by decide
  exact ⟨hclosure.normalize, hopened, derives_of_closure hp rfl rfl hflat hnesting (by decide) rfl
    (by decide) hclosure.normalize⟩

end ProtocolProver
