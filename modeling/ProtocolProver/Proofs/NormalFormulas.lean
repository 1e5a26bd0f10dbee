import ProtocolProver.Proofs.SystemShapes

/-!
# What normal forms are made of

The negation normal form of a formula is made of the atoms of the formula and of their negations, below
the same quantifiers. So it has a property if atoms have it and connectives keep it, in whichever place
the formula stands (`Formula.Over.forms`). In particular its terms have the shapes that those of the
formula have (`Formula.Has.toNnf`).
-/

namespace ProtocolProver

/-! ## Successful computations -/

theorem bind_eq_ok {ε α β : Type} {x : Except ε α} {f : α → Except ε β} {b : β}
    (h : (x >>= f) = .ok b) : ∃ a, x = .ok a ∧ f a = .ok b := by
  cases x with
  | error e => cases h
  | ok a => exact ⟨a, rfl, h⟩

theorem map_eq_ok {ε α β : Type} {x : Except ε α} {f : α → β} {b : β}
    (h : (f <$> x) = .ok b) : ∃ a, x = .ok a ∧ f a = b := by
  cases x with
  | error e => cases h
  | ok a => cases h; exact ⟨a, rfl, rfl⟩

theorem of_mem_mapM {ε α β : Type} {f : α → Except ε β} : ∀ {as : List α} {bs : List β},
    as.mapM f = .ok bs → ∀ b ∈ bs, ∃ a ∈ as, f a = .ok b
  | [], bs, h, b, hb => by cases h; cases hb
  | a :: as, bs, h, b, hb => by
    rw [List.mapM_cons] at h
    obtain ⟨c, hc, h⟩ := bind_eq_ok h
    obtain ⟨cs, hcs, h⟩ := bind_eq_ok h
    cases h
    rcases List.mem_cons.1 hb with rfl | hb
    · exact ⟨a, List.mem_cons_self .., hc⟩
    · obtain ⟨a', ha', h'⟩ := of_mem_mapM hcs b hb
      exact ⟨a', List.mem_cons_of_mem a ha', h'⟩

theorem forall₂_of_mapM {ε α β : Type} {f : α → Except ε β} : ∀ {as : List α} {bs : List β},
    as.mapM f = .ok bs → List.Forall₂ (fun a b => f a = .ok b) as bs
  | [], bs, h => by cases h; exact .nil
  | a :: as, bs, h => by
    rw [List.mapM_cons] at h
    obtain ⟨c, hc, h⟩ := bind_eq_ok h
    obtain ⟨cs, hcs, h⟩ := bind_eq_ok h
    cases h
    exact .cons hc (forall₂_of_mapM hcs)

/-! ## Formulas -/

def Binder.idx : Binder → Nat
  | .msg x => x.idx
  | .time i => i.idx

namespace Formula

mutual

/-- Every variable that a quantifier binds. -/
def binders : Formula → List Binder
  | .top | .bot | .atom _ => []
  | .neg f => binders f
  | .conj fs => bindersList fs
  | .disj fs => bindersList fs
  | .imp f g => binders f ++ binders g
  | .ex bs f => bs ++ binders f
  | .all bs f => bs ++ binders f

def bindersList : List Formula → List Binder
  | [] => []
  | f :: fs => binders f ++ bindersList fs

end

/-- Which atoms a formula may have in a context, and which variables its quantifiers may bind. -/
structure Grammar (C : Type) where
  binder : Binder → Prop
  /-- The context below a quantifier. -/
  bind : C → List Binder → C
  atom : C → Atom → Prop

/-- The formulas of a grammar. -/
inductive Over {C : Type} (G : Grammar C) : C → Formula → Prop
  | top {c : C} : Over G c .top
  | bot {c : C} : Over G c .bot
  | atom {c : C} {a : Atom} : G.atom c a → Over G c (.atom a)
  | neg {c : C} {f : Formula} : Over G c f → Over G c (.neg f)
  | conj {c : C} {fs : List Formula} : (∀ f ∈ fs, Over G c f) → Over G c (.conj fs)
  | disj {c : C} {fs : List Formula} : (∀ f ∈ fs, Over G c f) → Over G c (.disj fs)
  | imp {c : C} {f g : Formula} : Over G c f → Over G c g → Over G c (.imp f g)
  | ex {c : C} {bs : List Binder} {f : Formula} : (∀ b ∈ bs, G.binder b) →
      Over G (G.bind c bs) f → Over G c (.ex bs f)
  | all {c : C} {bs : List Binder} {f : Formula} : (∀ b ∈ bs, G.binder b) →
      Over G (G.bind c bs) f → Over G c (.all bs f)

variable {C : Type} {G : Grammar C} {N : C → Nnf → Prop} {c : C}

theorem conjunctsList_eq (fs : List Formula) : conjunctsList fs = fs.flatMap conjuncts := by
  induction fs with
  | nil => rfl
  | cons f fs ih => simp [conjunctsList, ih]

theorem formsList_eq (fs : List Formula) : formsList fs = fs.map forms := by
  induction fs with
  | nil => rfl
  | cons f fs ih => simp [formsList, ih]

theorem Over.conjuncts {f : Formula} (h : f.Over G c) : ∀ p ∈ f.conjuncts, p.Over G c := by
  induction h with
  | @conj _ fs _ ih =>
    intro p hp
    rw [Formula.conjuncts, conjunctsList_eq] at hp
    obtain ⟨f, hf, hp⟩ := List.mem_flatMap.1 hp
    exact ih f hf p hp
  | top => exact List.forall_mem_nil _
  | bot => exact List.forall_mem_singleton.2 .bot
  | atom h => exact List.forall_mem_singleton.2 (.atom h)
  | neg h => exact List.forall_mem_singleton.2 (.neg h)
  | disj h => exact List.forall_mem_singleton.2 (.disj h)
  | imp h h' => exact List.forall_mem_singleton.2 (.imp h h')
  | ex hb h => exact List.forall_mem_singleton.2 (.ex hb h)
  | all hb h => exact List.forall_mem_singleton.2 (.all hb h)

/-- The atoms of a grammar and their negations have a property that connectives and quantifiers keep. -/
structure Grammar.Yields (G : Grammar C) (N : C → Nnf → Prop) : Prop where
  top : ∀ {c}, N c .top
  bot : ∀ {c}, N c .bot
  atom : ∀ {c a}, G.atom c a → N c (.atom a)
  negate : ∀ {c a n}, G.atom c a → a.negate = .ok n → N c n
  conj : ∀ {c fs}, (∀ f ∈ fs, N c f) → N c (.conj fs)
  disj : ∀ {c fs}, (∀ f ∈ fs, N c f) → N c (.disj fs)
  ex : ∀ {c bs f}, (∀ b ∈ bs, G.binder b) → N (G.bind c bs) f → N c (.ex bs f)
  guarded : ∀ {c bs parts body n}, (∀ b ∈ bs, G.binder b) →
    (∀ p ∈ parts, p.Over G (G.bind c bs)) → N (G.bind c bs) body →
      mkGuarded bs parts body = .ok n → N c n

/-- Every normal form of a formula has the property. -/
structure Forms.In (G : Grammar C) (N : C → Nnf → Prop) (c : C) (r : Forms) : Prop where
  pos : ∀ n, r.pos = .ok n → N c n
  neg : ∀ n, r.neg = .ok n → N c n
  parts : ∀ ns, r.parts = .ok ns → ∀ n ∈ ns, N c n
  all : ∀ d bs n, (∀ b ∈ bs, G.binder b) → c = G.bind d bs → r.all bs = .ok n → N d n

theorem Grammar.Yields.forbid (hN : G.Yields N) {bs : List Binder} (hbs : ∀ b ∈ bs, G.binder b)
    {f : Formula} {r : Forms} {n : Nnf} (hf : f.Over G (G.bind c bs)) (hr : r.In G N (G.bind c bs))
    (h : forbid bs f r = .ok n) : N c n := by
  obtain ⟨parts, hparts, h⟩ := bind_eq_ok h
  have hconjuncts : ∀ p ∈ f.conjuncts.filter fun p => p.atom?.isSome, p.Over G (G.bind c bs) :=
    fun p hp => hf.conjuncts p (List.mem_filter.1 hp).1
  cases parts with
  | nil => exact hN.guarded hbs hconjuncts hN.bot h
  | cons part parts => exact hN.guarded hbs hconjuncts (hN.disj (hr.parts _ hparts)) h

theorem forall_mem_single {Q : Nnf → Prop} {x : Except FormulaError Nnf} (h : ∀ n, x = .ok n → Q n) :
    ∀ ns, (fun n => [n]) <$> x = .ok ns → ∀ n ∈ ns, Q n := by
  intro ns hns
  obtain ⟨n, hn, rfl⟩ := map_eq_ok hns
  exact List.forall_mem_singleton.2 (h n hn)

theorem exists_of_mem_formsList {β : Type} {g : Forms → Except FormulaError β} {fs : List Formula}
    {bs : List β} (h : (formsList fs).mapM g = .ok bs) {b : β} (hb : b ∈ bs) :
    ∃ f ∈ fs, g f.forms = .ok b := by
  rw [formsList_eq] at h
  obtain ⟨r, hr, he⟩ := of_mem_mapM h b hb
  obtain ⟨f, hf, rfl⟩ := List.mem_map.1 hr
  exact ⟨f, hf, he⟩

section Connectives

variable {Q : Nnf → Prop} {k : List Nnf → Nnf} (hk : ∀ {ns}, (∀ n ∈ ns, Q n) → Q (k ns))
include hk

theorem of_map_formsList {g : Forms → Except FormulaError Nnf} {fs : List Formula}
    (hfs : ∀ f ∈ fs, ∀ n, g f.forms = .ok n → Q n) :
    ∀ n, k <$> (formsList fs).mapM g = .ok n → Q n := by
  intro n hn
  obtain ⟨ns, hns, rfl⟩ := map_eq_ok hn
  refine hk fun n hn => ?_
  obtain ⟨f, hf, he⟩ := exists_of_mem_formsList hns hn
  exact hfs f hf n he

theorem of_pair {x y : Except FormulaError Nnf} (hx : ∀ n, x = .ok n → Q n)
    (hy : ∀ n, y = .ok n → Q n) : ∀ n, (do return k [← x, ← y]) = .ok n → Q n := by
  intro n hn
  obtain ⟨p, hp, hn⟩ := bind_eq_ok hn
  obtain ⟨q, hq, hn⟩ := bind_eq_ok hn
  cases hn
  exact hk (List.forall_mem_cons.2 ⟨hx p hp, List.forall_mem_singleton.2 (hy q hq)⟩)

end Connectives

theorem Over.forms (hN : G.Yields N) {f : Formula} (h : f.Over G c) : f.forms.In G N c := by
  induction h with
  | top =>
    refine ⟨fun n h => ?_, fun n h => ?_, fun ns h => ?_, by rintro _ _ _ _ _ ⟨⟩⟩ <;> cases h
    exacts [hN.top, hN.bot, List.forall_mem_nil _]
  | bot =>
    refine ⟨fun n h => ?_, fun n h => ?_, fun ns h => ?_, by rintro _ _ _ _ _ ⟨⟩⟩ <;> cases h
    exacts [hN.bot, hN.top, List.forall_mem_singleton.2 hN.top]
  | atom h =>
    refine ⟨fun n hn => ?_, fun n hn => hN.negate h hn, fun ns hns => ?_, by rintro _ _ _ _ _ ⟨⟩⟩
    · cases hn; exact hN.atom h
    · cases hns; exact List.forall_mem_nil _
  | neg hf ih =>
    refine ⟨ih.neg, ih.pos, forall_mem_single ih.pos, ?_⟩
    rintro d bs n hbs rfl hn
    exact hN.forbid hbs hf ih hn
  | @conj _ fs _ ih =>
    refine ⟨of_map_formsList hN.conj fun f hf => (ih f hf).pos,
      of_map_formsList hN.disj fun f hf => (ih f hf).neg, fun ns hns n hn => ?_,
      by rintro _ _ _ _ _ ⟨⟩⟩
    obtain ⟨nss, hnss, rfl⟩ := map_eq_ok hns
    obtain ⟨ns, hmem, hn⟩ := List.mem_flatten.1 hn
    obtain ⟨f, hf, he⟩ := exists_of_mem_formsList hnss hmem
    exact (ih f hf).parts ns he n hn
  | @disj c fs _ ih =>
    have hneg := of_map_formsList hN.conj fun f hf => (ih f hf).neg
    exact ⟨of_map_formsList hN.disj fun f hf => (ih f hf).pos, hneg, forall_mem_single hneg,
      by rintro _ _ _ _ _ ⟨⟩⟩
  | @imp c f g hf hg ihf ihg =>
    have hneg := of_pair hN.conj ihf.pos ihg.neg
    refine ⟨of_pair hN.disj ihf.neg ihg.pos, hneg, forall_mem_single hneg, ?_⟩
    rintro d bs n hbs rfl hn
    obtain ⟨q, hq, hn⟩ := bind_eq_ok hn
    exact hN.guarded hbs hf.conjuncts (ihg.pos q hq) hn
  | @ex c bs f hbs hf ih =>
    have hneg : ∀ n, Formula.forbid bs f f.forms = .ok n → N c n := fun n => hN.forbid hbs hf ih
    refine ⟨fun n hn => ?_, hneg, forall_mem_single hneg, by rintro _ _ _ _ _ ⟨⟩⟩
    obtain ⟨p, hp, rfl⟩ := map_eq_ok hn
    exact hN.ex hbs (ih.pos p hp)
  | @all c bs f hbs hf ih =>
    have hneg : ∀ n, Nnf.ex bs <$> f.forms.neg = .ok n → N c n := by
      intro n hn
      obtain ⟨p, hp, rfl⟩ := map_eq_ok hn
      exact hN.ex hbs (ih.neg p hp)
    exact ⟨fun n => ih.all c bs n hbs rfl, hneg, forall_mem_single hneg, by rintro _ _ _ _ _ ⟨⟩⟩

/-! ## Shapes of terms -/

variable {P : Shape}

def shapes (P : Shape) : Grammar Unit :=
  ⟨fun _ => True, fun _ _ => (), fun _ a => ∀ t ∈ a.terms, t.Has P⟩

/-- Every term of the formula has the shape. -/
abbrev Has (P : Shape) (f : Formula) : Prop := f.Over (shapes P) ()

theorem yields_shapes (P : Shape) : (shapes P).Yields fun _ n => n.Has P where
  top := List.forall_mem_nil _
  bot := List.forall_mem_nil _
  atom h := h
  negate h hn t ht := h t (Atom.terms_negate hn t ht)
  conj := Nnf.has_conj.2
  disj := Nnf.has_disj.2
  ex _ h := h
  guarded _ hparts hbody h := by
    obtain ⟨guard, hguard, h⟩ := bind_eq_ok h
    obtain ⟨_, -, h⟩ := bind_eq_ok h
    cases h
    refine Nnf.has_guarded.2 ⟨fun a ha => ?_, hbody⟩
    obtain ⟨p, hp, he⟩ := of_mem_mapM hguard a ha
    unfold guardAtom at he
    split at he <;> cases he
    cases hparts _ hp
    assumption

theorem Has.toNnf {f : Formula} (h : f.Has P) {n : Nnf} (hn : f.toNnf = .ok n) : n.Has P := by
  unfold Formula.toNnf at hn
  split at hn
  · cases hn
  · cases hn
  · exact (h.forms (yields_shapes P)).pos n hn

theorem Has.toTermNnf {f : Formula} (h : f.Has P) {n : Nnf} (hn : f.toTermNnf = .ok n) :
    n.Has P := by
  unfold Formula.toTermNnf at hn
  split at hn
  · exact (h.forms (yields_shapes P)).pos n hn
  · cases hn

end Formula

end ProtocolProver
