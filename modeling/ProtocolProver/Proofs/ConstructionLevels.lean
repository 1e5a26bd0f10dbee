import ProtocolProver.Proofs.Construction
import ProtocolProver.Proofs.LowestTrees

/-!
# Levels of construction

Sums, products and unions are built two parts at a time, and so are powers whose exponents have several
factors. `Theory.levels` is how many applications are nested when this is done in the lowest way. A
derivable message can always be built in as many levels as it has (`Makes.derivable`): what it is built
from are known parts and single arguments, and these can be joined in any order.
-/

namespace ProtocolProver

theorem flatForm_of_two_le {f : Symbol} {unit : Term} {l : List Term} (h : 2 ≤ l.length) :
    flatForm f unit l = .app f (sortTerms l) := by
  rcases l with _ | ⟨a, _ | ⟨b, l⟩⟩
  · simp at h
  · simp at h
  · rfl

namespace Theory

/-! ## Levels -/

/-- The levels of a power, from those of its arguments and of their factors. If there are too many
factors to be split, the exponent is built first. -/
def powerLevels : List (Nat × List Nat) → Nat
  | [b, e] => if e.2.length ≤ Exponent.maxSplitFactors then height (b.1 :: e.2) else max b.1 e.1 + 1
  | _ => 0

/-- The levels of an application, from those of its arguments and of their factors. -/
def appLevels (T : Theory) (f : Symbol) (vs : List (Nat × List Nat)) : Nat :=
  if T.isAssoc f then height (vs.map Prod.fst)
  else if T.algebras.exponents && f == .exp then powerLevels vs
  else (vs.map Prod.fst).foldr max 0 + 1

/-- The levels of a term, and of each of its factors. -/
def levelAlgebra (T : Theory) : TermAlgebra (Nat × List Nat) where
  name _ := (0, [0])
  op f vs := (T.appLevels f vs,
    if f = .mult then vs.map Prod.fst else if f = .one then [] else [T.appLevels f vs])

/-- How many applications are nested in the lowest way to write a term with binary symbols. -/
def levels (T : Theory) (t : Term) : Nat := (T.levelAlgebra.value (fun _ => (0, [0])) t).1

variable {T : Theory} {f : Symbol} {as l : List Term} {b e unit : Term}

theorem map_fst_value (as : List Term) :
    (as.map (T.levelAlgebra.value fun _ => (0, [0]))).map Prod.fst = as.map T.levels :=
  List.map_map

theorem levels_eq (f : Symbol) (as : List Term) : T.levels (.app f as) =
    T.appLevels f (as.map (T.levelAlgebra.value fun _ => (0, [0]))) := by
  rw [levels, TermAlgebra.value_app]
  rfl

theorem levels_factors (t : Term) : (T.levelAlgebra.value (fun _ => (0, [0])) t).2 =
    (Exponent.factors t).map T.levels := by
  cases t with
  | var v => rfl
  | name n => rfl
  | app f as =>
    rw [TermAlgebra.value_app]
    change (if f = .mult then _ else if f = .one then [] else [_]) = _
    rw [map_fst_value, ← levels_eq, Exponent.factors]
    split_ifs <;> rfl

theorem levels_assoc (hf : T.isAssoc f = true) : T.levels (.app f as) = height (as.map T.levels) := by
  rw [levels_eq, appLevels, if_pos hf, map_fst_value]

theorem levels_exp (ha : T.algebras.exponents = true) : T.levels (.app .exp [b, e]) =
    if (Exponent.factors e).length ≤ Exponent.maxSplitFactors then
      height (T.levels b :: (Exponent.factors e).map T.levels)
    else max (T.levels b) (T.levels e) + 1 := by
  rw [levels_eq, appLevels, if_neg (by rw [isAssoc_exp]; decide), if_pos (by rw [ha]; rfl)]
  change (if _ then height (_ :: _) else _) = _
  rw [levels_factors, List.length_map]
  rfl

theorem levels_app (hf : T.isAssoc f = false) (hexp : ¬(T.algebras.exponents = true ∧ f = .exp)) :
    T.levels (.app f as) = (as.map T.levels).foldr max 0 + 1 := by
  rw [levels_eq, appLevels, if_neg (by rw [hf]; decide), if_neg (by simpa using hexp), map_fst_value]

theorem levels_flatForm (hf : T.isAssoc f = true) (hne : l ≠ []) :
    T.levels (flatForm f unit l) = height (l.map T.levels) := by
  rcases l with _ | ⟨a, _ | ⟨b, l⟩⟩
  · exact absurd rfl hne
  · exact (height_singleton _).symm
  · rw [flatForm_of_two_le (by simp), levels_assoc hf, height_perm ((sortTerms_perm _).map _)]

/-! ## Associative symbols -/

/-- An associative symbol with a unit: nothing is to be reduced when it is applied to a list with the
given property, and such an application is split in two. -/
structure Associates (T : Theory) (f : Symbol) (unit : Term) (Reduced : List Term → Prop) : Prop where
  assoc : T.isAssoc f = true
  part : ∀ {ts us l : List Term}, Reduced l → (ts ++ us).Perm l → Reduced ts
  message : ∀ {l : List Term}, Reduced l → l ≠ [] → (∀ t ∈ l, T.Message t) →
    T.Message (flatForm f unit l)
  mem_decompose : ∀ {as ts us : List Term}, Reduced as → (ts, us) ∈ bipartitions as →
    [flatForm f unit ts, flatForm f unit us] ∈ T.decompose (.app f as)
  few : ∀ {as parts : List Term}, parts ∈ T.decompose (.app f as) → as.length ≤ maxBipartition
  splits : ∀ {as parts : List Term}, Reduced as → T.Splits (.app f as) parts → parts = as ∨
    ∃ ts us, (ts ++ us).Perm as ∧ ts ≠ [] ∧ us ≠ [] ∧
      parts = [flatForm f unit ts, flatForm f unit us]

theorem associates_mult (ha : T.algebras.exponents = true) :
    T.Associates .mult (.const .one) Exponent.Reduced where
  assoc := isAssoc_eq_true_iff.2 (.inl ⟨ha, rfl⟩)
  part h hp := h.subset (perm_append_subset hp).1
  message hr _ h := Exponent.product_eq _ ▸ .product ha hr h
  mem_decompose _ h := by
    rw [decompose, Algebras.owner?_exponents ha rfl, ← Exponent.product_eq, ← Exponent.product_eq]
    exact List.mem_map.2 ⟨_, h, rfl⟩
  few h := by
    rw [decompose, Algebras.owner?_exponents ha rfl] at h
    obtain ⟨p, hp, -⟩ := List.mem_map.1 h
    exact length_le_of_mem_bipartitions hp
  splits _ h := by
    cases h with
    | args => exact .inl rfl
    | product _ hp hts hus =>
      exact .inr ⟨_, _, hp, hts, hus, by rw [Exponent.product_eq, Exponent.product_eq]⟩

theorem associates_xor (hx : T.algebras.xor = true) :
    T.Associates .xor (.const .zero) ExclusiveOr.Reduced where
  assoc := isAssoc_eq_true_iff.2 (.inr (.inl ⟨hx, rfl⟩))
  part h hp := h.subperm hp
  message hr _ h := hr.sum_eq ▸ .sum hx hr.summand h
  mem_decompose hr h := by
    have hp := perm_of_mem_bipartitions h
    rw [decompose, Algebras.owner?_xor hx rfl, ← (hr.subperm hp).sum_eq,
      ← (hr.subperm (List.perm_append_comm.trans hp)).sum_eq]
    exact List.mem_map.2 ⟨_, h, rfl⟩
  few h := by
    rw [decompose, Algebras.owner?_xor hx rfl] at h
    obtain ⟨p, hp, -⟩ := List.mem_map.1 h
    exact length_le_of_mem_bipartitions hp
  splits hr h := by
    cases h with
    | args => exact .inl rfl
    | sum _ hp hts hus =>
      exact .inr ⟨_, _, hp, hts, hus, by
        rw [(hr.subperm hp).sum_eq, (hr.subperm (List.perm_append_comm.trans hp)).sum_eq]⟩

theorem associates_union (hm : T.algebras.multisets = true) :
    T.Associates .union (.app .union []) fun l => ∀ t ∈ l, t.head? ≠ some .union where
  assoc := isAssoc_eq_true_iff.2 (.inr (.inr ⟨hm, rfl⟩))
  part h hp := fun t ht => h t ((perm_append_subset hp).1 t ht)
  message hr hne h := Multiset.union_eq _ ▸ .union hm hne hr h
  mem_decompose _ h := by
    rw [decompose, Algebras.owner?_multisets hm, ← Multiset.union_eq, ← Multiset.union_eq]
    exact List.mem_map.2 ⟨_, h, rfl⟩
  few h := by
    rw [decompose, Algebras.owner?_multisets hm] at h
    obtain ⟨p, hp, -⟩ := List.mem_map.1 h
    exact length_le_of_mem_bipartitions hp
  splits _ h := by
    cases h with
    | args => exact .inl rfl
    | union _ hp hts hus =>
      exact .inr ⟨_, _, hp, hts, hus, by rw [Multiset.union_eq, Multiset.union_eq]⟩

theorem exists_associates (hf : T.isAssoc f = true) (ht : T.Message (.app f as)) :
    ∃ unit Reduced, T.Associates f unit Reduced ∧ Reduced as ∧ 2 ≤ as.length ∧
      flatForm f unit as = .app f as := by
  have hflat : ∀ {unit : Term}, 2 ≤ as.length → sortTerms as = as →
      flatForm f unit as = .app f as := fun hlen hsort => by
    rw [flatForm_of_two_le hlen, hsort]
  rcases isAssoc_eq_true_iff.1 hf with ⟨ha, rfl⟩ | ⟨hx, rfl⟩ | ⟨hm, rfl⟩
  · obtain ⟨hlen, hsort, hr⟩ := (ht.normal.exponent_root ha rfl).mult rfl
    exact ⟨_, _, associates_mult ha, hr, hlen, hflat hlen hsort⟩
  · obtain ⟨hlen, hsort, hr⟩ := (ht.normal.xor_root hx rfl).xor rfl
    exact ⟨_, _, associates_xor hx, hr, hlen, hflat hlen hsort⟩
  · obtain ⟨hlen, hsort, hr⟩ := ht.normal.union_root hm
    exact ⟨_, _, associates_union hm, hr, hlen, hflat hlen hsort⟩

theorem Splits.eq_args {parts : List Term} (hf : T.isAssoc f = false)
    (hexp : ¬(T.algebras.exponents = true ∧ f = .exp)) (h : T.Splits (.app f as) parts) :
    parts = as := by
  cases h with
  | args => rfl
  | power ha => exact absurd ⟨ha, rfl⟩ hexp
  | product ha => rw [(associates_mult ha).assoc] at hf; cases hf
  | sum hx => rw [(associates_xor hx).assoc] at hf; cases hf
  | union hm => rw [(associates_union hm).assoc] at hf; cases hf

theorem eq_or_length_le_of_mem_decompose_exp (ha : T.algebras.exponents = true) {parts : List Term}
    (h : parts ∈ T.decompose (.app .exp [b, e])) :
    parts = [b, e] ∨ (Exponent.factors e).length ≤ Exponent.maxSplitFactors := by
  rw [decompose, Algebras.owner?_exponents ha rfl] at h
  rcases List.mem_cons.1 h with rfl | h
  · exact .inl rfl
  · split_ifs at h with hlen
    · exact .inr hlen.2
    · cases h

end Theory

namespace Knowledge

/-! ## Derivable messages -/

/-- The message is derivable, with whatever depth of construction. -/
def Makes (K : Knowledge) (T : Theory) (t : Term) : Prop := ∃ n, K.derivable T n t = true

variable {K : Knowledge} {T : Theory} {t : Term} {n : Nat}

/-- The message is derivable in as many levels as it has, if it is derivable. -/
def Lowest (K : Knowledge) (T : Theory) (t : Term) : Prop :=
  K.Makes T t → K.derivable T (T.levels t) t = true

theorem makes_of_contains (h : K.contains t = true) : K.Makes T t := ⟨0, derivable_of_contains h⟩

theorem exists_depth : ∀ {parts : List Term}, (∀ p ∈ parts, K.Makes T p) →
    ∃ n, ∀ p ∈ parts, K.derivable T n p = true
  | [], _ => ⟨0, List.forall_mem_nil _⟩
  | p :: parts, h => by
    obtain ⟨⟨m, hm⟩, hparts⟩ := List.forall_mem_cons.1 h
    obtain ⟨n, hn⟩ := exists_depth hparts
    refine ⟨max m n, List.forall_mem_cons.2 ⟨derivable_le hm (Nat.le_max_left ..), fun q hq => ?_⟩⟩
    exact derivable_le (hn q hq) (Nat.le_max_right ..)

theorem makes_of_parts {f : Symbol} {as parts : List Term} (hparts : parts ∈ T.decompose (.app f as))
    (h : ∀ p ∈ parts, K.Makes T p) : K.Makes T (.app f as) := by
  obtain ⟨n, hn⟩ := exists_depth h
  exact ⟨n + 1, derivable_of_decompose hparts hn⟩

theorem Makes.cases (h : K.Makes T t) : (∀ n, K.derivable T n t = true) ∨ ∃ f as parts,
    t = .app f as ∧ parts ∈ T.decompose (.app f as) ∧ ∀ p ∈ parts, K.Makes T p := by
  obtain ⟨n, h⟩ := h
  rcases derivable_iff.1 h with h | h | ⟨f, as, parts, m, -, rfl, hparts, hall⟩
  · exact .inl fun n => derivable_of_contains h
  · exact .inl fun n => derivable_iff.2 (.inr (.inl h))
  · exact .inr ⟨f, as, parts, rfl, hparts, fun p hp => ⟨m, hall p hp⟩⟩

theorem Makes.induction (hT : T.Standard) {P : Term → Prop}
    (hknown : ∀ t, T.Message t → K.contains t = true → P t) (hpub : ∀ name, P (.name (.pub name)))
    (hsplits : ∀ f as parts, T.Message (.app f as) → T.Splits (.app f as) parts →
      (∀ p ∈ parts, T.Message p ∧ K.Makes T p ∧ P p) → P (.app f as)) (ht : T.Message t)
    (h : K.Makes T t) : P t := by
  obtain ⟨n, h⟩ := h
  refine (derivable_parts_induction (P := fun t => K.Makes T t ∧ P t) hT
    (fun t ht hk => ⟨makes_of_contains hk, hknown t ht hk⟩)
    (fun name => ⟨⟨0, derivable_iff.2 (.inr (.inl ⟨name, rfl⟩))⟩, hpub name⟩)
    (fun f as parts ht hparts hall => ⟨?_, ?_⟩) ht h).2
  · exact makes_of_parts hparts fun p hp => (hall p hp).2.1
  · exact hsplits f as parts ht (Theory.splits_of_mem_decompose hT ht hparts) hall

section Flat

variable {f : Symbol} {unit : Term} {Reduced : List Term → Prop} (h : T.Associates f unit Reduced)

include h

theorem derivable_append {ts us : List Term} (hr : Reduced (ts ++ us)) (hts : ts ≠ []) (hus : us ≠ [])
    (hlen : (ts ++ us).length ≤ maxBipartition) (ht : K.derivable T n (flatForm f unit ts) = true)
    (hu : K.derivable T n (flatForm f unit us) = true) :
    K.derivable T (n + 1) (flatForm f unit (ts ++ us)) = true := by
  have hp := sortTerms_perm (ts ++ us)
  have htwo : 2 ≤ (ts ++ us).length := by
    have h₁ := List.length_pos_iff.2 hts
    have h₂ := List.length_pos_iff.2 hus
    rw [List.length_append]
    omega
  rw [flatForm_of_two_le htwo]
  obtain ⟨⟨ps, qs⟩, hmem, hsplit⟩ := exists_mem_bipartitions hp hts hus (by rwa [length_sortTerms])
  refine derivable_of_decompose
    (h.mem_decompose (h.part hr (by rwa [List.append_nil])) hmem) ?_
  rw [List.forall_mem_cons, List.forall_mem_singleton]
  rcases hsplit with ⟨hps, hqs⟩ | ⟨hps, hqs⟩ <;>
    rw [flatForm_eq_of_perm hps, flatForm_eq_of_perm hqs]
  · exact ⟨ht, hu⟩
  · exact ⟨hu, ht⟩

theorem makes_append {ts us : List Term} (hr : Reduced (ts ++ us))
    (hlen : (ts ++ us).length ≤ maxBipartition) (hts : K.Makes T (flatForm f unit ts))
    (hus : K.Makes T (flatForm f unit us)) : K.Makes T (flatForm f unit (ts ++ us)) := by
  by_cases htnil : ts = []
  · rwa [htnil, List.nil_append]
  by_cases hunil : us = []
  · rwa [hunil, List.append_nil]
  obtain ⟨m, hm⟩ := hts
  obtain ⟨n, hn⟩ := hus
  exact ⟨max m n + 1, derivable_append h hr htnil hunil hlen
    (derivable_le hm (Nat.le_max_left ..)) (derivable_le hn (Nat.le_max_right ..))⟩

theorem makes_flatForm (hunit : K.Makes T unit) : ∀ {l : List Term}, Reduced l →
    l.length ≤ maxBipartition → (∀ t ∈ l, K.Makes T t) → K.Makes T (flatForm f unit l)
  | [], _, _, _ => hunit
  | a :: as, hr, hlen, hl => by
    obtain ⟨ha, has⟩ := List.forall_mem_cons.1 hl
    have htail : Reduced as := h.part hr (List.perm_append_singleton a as)
    have hmade : K.Makes T (flatForm f unit as) :=
      makes_flatForm hunit htail (Nat.le_of_succ_le hlen) has
    exact @makes_append K T _ _ _ h [a] as hr hlen ha hmade

end Flat

/-! ## Pieces -/

/-- A flat application is built from pieces: known parts, and single arguments. -/
def Covers (K : Knowledge) (T : Theory) (f : Symbol) (unit : Term) (l : List Term) : Prop :=
  ∃ ps : List (List Term), ps.flatten.Perm l ∧ ∀ p ∈ ps, p ≠ [] ∧
    (K.contains (flatForm f unit p) = true ∨ ∃ x, p = [x] ∧ K.Makes T x)

section Pieces

variable {f : Symbol} {unit : Term} {l : List Term}

theorem Covers.of_forall (h : ∀ x ∈ l, K.Makes T x) : K.Covers T f unit l := by
  refine ⟨l.map ([·]), by rw [← List.flatMap_def, List.flatMap_singleton'], ?_⟩
  exact List.forall_mem_map.2 fun x hx => ⟨List.cons_ne_nil _ _, .inr ⟨x, rfl, h x hx⟩⟩

theorem Covers.append {ts us : List Term} (hts : K.Covers T f unit ts) (hus : K.Covers T f unit us)
    (hp : (ts ++ us).Perm l) : K.Covers T f unit l := by
  obtain ⟨ps, hps, hpieces⟩ := hts
  obtain ⟨qs, hqs, hqpieces⟩ := hus
  refine ⟨ps ++ qs, ?_, List.forall_mem_append.2 ⟨hpieces, hqpieces⟩⟩
  rw [List.flatten_append]
  exact (hps.append hqs).trans hp

variable {Reduced : List Term → Prop} (h : T.Associates f unit Reduced)

include h

theorem covers_of_makes (hT : T.Standard) (hr : Reduced l) (hne : l ≠ [])
    (hmessage : T.Message (flatForm f unit l)) (hmade : K.Makes T (flatForm f unit l)) :
    K.Covers T f unit l := by
  -- For one argument nothing is to be shown, so the induction is about proper applications.
  have hone : ∀ {ts : List Term}, ts ≠ [] → K.Makes T (flatForm f unit ts) →
      (2 ≤ ts.length → K.Covers T f unit ts) → K.Covers T f unit ts := by
    intro ts hts hmade htwo
    by_cases hlen : 2 ≤ ts.length
    · exact htwo hlen
    · obtain ⟨x, rfl⟩ := List.length_eq_one_iff.1
        (Nat.le_antisymm (by omega) (List.length_pos_iff.2 hts))
      exact .of_forall (List.forall_mem_singleton.2 hmade)
  refine hone hne hmade fun htwo => ?_
  refine Makes.induction (P := fun t => ∀ l, Reduced l → 2 ≤ l.length → t = flatForm f unit l →
    K.Covers T f unit l) hT ?_ ?_ ?_ hmessage hmade l hr htwo rfl
  · rintro t - hc l - hlen rfl
    refine ⟨[l], by simp, List.forall_mem_singleton.2 ⟨?_, .inl hc⟩⟩
    exact List.ne_nil_of_length_pos (by omega)
  · intro name l _ hlen hl
    rw [flatForm_of_two_le hlen] at hl
    cases hl
  · intro g as parts _ hsplits hall l hr hlen hl
    rw [flatForm_of_two_le hlen] at hl
    cases hl
    have hsort := sortTerms_perm l
    rcases h.splits (h.part hr (by rwa [List.append_nil])) hsplits with
      rfl | ⟨ts, us, hp, hts, hus, rfl⟩
    · exact .of_forall fun x hx => (hall x (mem_sortTerms.2 hx)).2.1
    · rw [List.forall_mem_cons, List.forall_mem_singleton] at hall
      obtain ⟨⟨-, htmade, htrec⟩, -, humade, hurec⟩ := hall
      have hpl := hp.trans hsort
      have hrt := h.part hr hpl
      have hru := h.part hr (List.perm_append_comm.trans hpl)
      exact .append (hone hts htmade fun h2 => htrec ts hrt h2 rfl)
        (hone hus humade fun h2 => hurec us hru h2 rfl) hpl

/-- The pieces of a flat application are joined in the lowest way. -/
theorem derivable_of_covers (hr : Reduced l) (hne : l ≠ []) (hlen : l.length ≤ maxBipartition)
    (hcovers : K.Covers T f unit l)
    (hargs : ∀ x ∈ l, K.Lowest T x) :
    K.derivable T (height (l.map T.levels)) (flatForm f unit l) = true := by
  obtain ⟨ps, hps, hpieces⟩ := hcovers
  refine join_pieces (fun ts n => K.derivable T n (flatForm f unit ts) = true) derivable_le
    (fun hp hts => flatForm_eq_of_perm hp ▸ hts) (fun hp hts hus hderivable hderivable' => ?_) hne hps
    fun p hp => ⟨(hpieces p hp).1, ?_⟩
  · rw [← List.append_assoc] at hp
    have hlength := hp.length_eq
    rw [List.length_append] at hlength
    exact derivable_append h (h.part hr hp) hts hus (by omega) hderivable hderivable'
  · rcases (hpieces p hp).2 with hc | ⟨x, rfl, hx⟩
    · exact ⟨0, derivable_of_contains hc, load_pos (by simpa using (hpieces p hp).1)⟩
    · have hmem : x ∈ l := hps.mem_iff.1 (List.mem_flatten.2 ⟨_, hp, List.mem_singleton_self x⟩)
      exact ⟨T.levels x, hargs x hmem hx, by simp [load]⟩

end Pieces

/-! ## Powers -/

/-- A power is built from a known power or the base, and from a product of the other factors. -/
def CoversPower (K : Knowledge) (T : Theory) (b : Term) (l : List Term) : Prop :=
  ∃ ts us, (ts ++ us).Perm l ∧ (K.contains (Exponent.raise b (Exponent.product ts)) = true ∨
    ts = [] ∧ K.Makes T b) ∧ K.Covers T .mult (.const .one) us

/-- The base, if it is there, raised to the factors. -/
def powerOf (b : Term) (l : List (Option Term)) : Term :=
  if none ∈ l then Exponent.raise b (Exponent.product (l.filterMap id))
  else Exponent.product (l.filterMap id)

theorem powerOf_base (b : Term) (ts : List Term) :
    powerOf b (none :: ts.map some) = Exponent.raise b (Exponent.product ts) := by
  simp [powerOf, List.filterMap_map]

theorem powerOf_factors (b : Term) (ts : List Term) : powerOf b (ts.map some) = Exponent.product ts := by
  simp [powerOf, List.filterMap_map]

theorem powerOf_eq_of_perm {b : Term} {l l' : List (Option Term)} (h : l.Perm l') :
    powerOf b l = powerOf b l' := by
  rw [powerOf, powerOf, Exponent.product_eq_of_perm (h.filterMap id)]
  simp only [h.mem_iff]

section Powers

variable (ha : T.algebras.exponents = true) {b e : Term}

include ha

theorem derivable_raise {ts us : List Term} (hr : Exponent.Reduced (ts ++ us)) (hus : us ≠ [])
    (hlen : ts = [] ∨ (ts ++ us).length ≤ Exponent.maxSplitFactors)
    (ht : K.derivable T n (Exponent.raise b (Exponent.product ts)) = true)
    (hu : K.derivable T n (Exponent.product us) = true) :
    K.derivable T (n + 1) (Exponent.raise b (Exponent.product (ts ++ us))) = true := by
  rw [Exponent.raise_product hr (by simp [hus])]
  by_cases hts : ts = []
  · rw [hts] at ht ⊢
    refine derivable_of_decompose (Theory.mem_decompose_exp ha) ?_
    rw [List.forall_mem_cons, List.forall_mem_singleton]
    exact ⟨ht, hu⟩
  · have hfactors := Exponent.factors_product_perm hr
    rw [Exponent.raise_product (hr.subset fun x => List.mem_append_left us) hts] at ht
    refine derivable_of_decompose (Theory.mem_decompose_power ha hfactors.symm hts hus
      (hfactors.length_eq.trans_le (hlen.resolve_left hts))) ?_
    rw [List.forall_mem_cons, List.forall_mem_singleton]
    exact ⟨ht, hu⟩

theorem coversPower_of_makes (hT : T.Standard) (hmessage : T.Message (.app .exp [b, e]))
    (hmade : K.Makes T (.app .exp [b, e])) : K.CoversPower T b (Exponent.factors e) := by
  have hproduct : ∀ {us : List Term}, Exponent.Reduced us → us ≠ [] →
      T.Message (Exponent.product us) → K.Makes T (Exponent.product us) →
        K.Covers T .mult (.const .one) us := by
    intro us hr hus hmessage hmade
    rw [Exponent.product_eq] at hmessage hmade
    exact covers_of_makes (Theory.associates_mult ha) hT hr hus hmessage hmade
  refine Makes.induction (P := fun t => ∀ b e, t = .app .exp [b, e] →
    K.CoversPower T b (Exponent.factors e)) hT ?_ ?_ ?_ hmessage hmade b e rfl
  · rintro t ht hc b e rfl
    have he := (ht.args e (by simp)).normal.exponent ha
    obtain ⟨b', e', hbe, -, hne⟩ := (ht.normal.exponent_root ha rfl).exp rfl
    cases hbe
    refine ⟨Exponent.factors e, [], by rw [List.append_nil], .inl ?_,
      .of_forall (List.forall_mem_nil _)⟩
    rwa [he.product_factors, Exponent.raise, if_neg hne]
  · rintro name b e ⟨⟩
  · rintro f as parts ht hsplits hall b e ⟨⟩
    have he := (ht.args e (by simp)).normal.exponent ha
    cases hsplits with
    | args =>
      obtain ⟨b', e', hbe, -, hne⟩ := (ht.normal.exponent_root ha rfl).exp rfl
      cases hbe
      have hfactors : Exponent.factors e ≠ [] := by
        intro hnil
        rw [← he.product_factors, hnil] at hne
        exact hne rfl
      obtain ⟨hme, hmade, -⟩ := hall e (by simp)
      rw [← he.product_factors] at hme hmade
      exact ⟨[], _, .refl _, .inr ⟨rfl, (hall b (by simp)).2.1⟩,
        hproduct he.reduced hfactors hme hmade⟩
    | @power _ _ ts us _ hp hts hus =>
      rw [List.forall_mem_cons, List.forall_mem_singleton] at hall
      obtain ⟨⟨-, -, hrec⟩, hmu, hmade, -⟩ := hall
      obtain ⟨htsub, husub⟩ := Theory.perm_append_subset hp
      obtain ⟨ps, qs, hpq, hbase, hcovers⟩ := hrec b _ rfl
      have hts := hpq.trans (Exponent.factors_product_perm (he.reduced.subset htsub))
      refine ⟨ps, qs ++ us, ?_, hbase, hcovers.append
        (hproduct (he.reduced.subset husub) hus hmu hmade) (.refl _)⟩
      rw [← List.append_assoc]
      exact (hts.append_right us).trans hp

theorem derivable_powerOf_append {l l' : List (Option Term)} (hl : l ≠ []) (hl' : l' ≠ [])
    (hr : Exponent.Reduced ((l ++ l').filterMap id))
    (hlen : ((l ++ l').filterMap id).length ≤ Exponent.maxSplitFactors)
    (hbase : none ∈ l → none ∉ l') (h : K.derivable T n (powerOf b l) = true)
    (h' : K.derivable T n (powerOf b l') = true) :
    K.derivable T (n + 1) (powerOf b (l ++ l')) = true := by
  have hfactors : ∀ {l : List (Option Term)}, l ≠ [] → none ∉ l → l.filterMap id ≠ [] := by
    intro l hne hnone
    obtain ⟨o, ho⟩ := List.exists_mem_of_ne_nil l hne
    rcases o with _ | x
    · exact absurd ho hnone
    · exact List.ne_nil_of_mem (List.mem_filterMap.2 ⟨some x, ho, rfl⟩)
  rw [List.filterMap_append] at hr hlen
  by_cases hnone : none ∈ l
  · rw [powerOf, if_pos hnone] at h
    rw [powerOf, if_neg (hbase hnone)] at h'
    rw [powerOf, if_pos (List.mem_append_left _ hnone), List.filterMap_append]
    exact derivable_raise ha hr (hfactors hl' (hbase hnone)) (.inr hlen) h h'
  rw [powerOf, if_neg hnone] at h
  by_cases hnone' : none ∈ l'
  · rw [powerOf, if_pos hnone'] at h'
    rw [powerOf_eq_of_perm List.perm_append_comm, powerOf, if_pos (List.mem_append_left _ hnone'),
      List.filterMap_append]
    exact derivable_raise ha (hr.of_perm List.perm_append_comm) (hfactors hl hnone)
      (.inr (List.perm_append_comm.length_eq.trans_le hlen)) h' h
  · rw [powerOf, if_neg hnone', Exponent.product_eq] at h'
    rw [Exponent.product_eq] at h
    rw [powerOf, if_neg (by simp [hnone, hnone']), List.filterMap_append, Exponent.product_eq]
    exact derivable_append (Theory.associates_mult ha) hr (hfactors hl hnone) (hfactors hl' hnone')
      (hlen.trans (by decide)) h h'

/-- The pieces of a power are joined in the lowest way. -/
theorem derivable_of_coversPower {l : List Term} (hr : Exponent.Reduced l)
    (hlen : l.length ≤ Exponent.maxSplitFactors) (hcovers : K.CoversPower T b l)
    (hb : K.Lowest T b) (hargs : ∀ x ∈ l, K.Lowest T x) :
    K.derivable T (height (T.levels b :: l.map T.levels)) (Exponent.raise b (Exponent.product l)) =
      true := by
  obtain ⟨ts, us, hsplit, hbase, ps, hps, hpieces⟩ := hcovers
  -- The base is a leaf like the factors, marked by `none`.
  have hwhole : (none :: l.map some).filterMap id = l := by simp [List.filterMap_map]
  have hflatten : ((none :: ts.map some) :: ps.map (List.map some)).flatten.Perm
      (none :: l.map some) := by
    rw [List.flatten_cons, ← List.map_flatten, List.cons_append, ← List.map_append]
    exact (((hps.append_left ts).trans hsplit).map some).cons none
  have hjoined := @join_pieces _ (fun l n => K.derivable T n (powerOf b l) = true)
    (none :: l.map some) derivable_le (fun hp hl => powerOf_eq_of_perm hp ▸ hl)
    (fun {l₁ l₂ rest n} hq hl₁ hl₂ h₁ h₂ => ?_) (List.cons_ne_nil _ _)
    (fun x => x.elim (T.levels b) T.levels) _ hflatten
    (List.forall_mem_cons.2 ⟨⟨List.cons_ne_nil _ _, ?_⟩, List.forall_mem_map.2 fun p hp => ⟨?_, ?_⟩⟩)
  · rw [powerOf_base, List.map_cons, List.map_map] at hjoined
    exact hjoined
  · rw [← List.append_assoc] at hq
    have hq' := hq.filterMap id
    rw [hwhole, List.filterMap_append] at hq'
    have hlength := hq'.length_eq
    rw [List.length_append] at hlength
    refine derivable_powerOf_append ha hl₁ hl₂ (hr.subset (Theory.perm_append_subset hq').1)
      (by omega) (fun h₁ h₂ => ?_) h₁ h₂
    have hcount := hq.count_eq none
    rw [List.count_append, List.count_append, List.count_cons_self] at hcount
    have := List.count_pos_iff.2 h₁
    have := List.count_pos_iff.2 h₂
    have : (l.map some).count none = 0 := List.count_eq_zero.2 (by simp)
    omega
  · rw [powerOf_base]
    rcases hbase with hc | ⟨rfl, hmade⟩
    · exact ⟨0, derivable_of_contains hc, load_pos (by simp)⟩
    · exact ⟨T.levels b, hb hmade, by simp [load]⟩
  · simpa using (hpieces p hp).1
  · rw [powerOf_factors]
    rcases (hpieces p hp).2 with hc | ⟨x, rfl, hx⟩
    · rw [← Exponent.product_eq] at hc
      exact ⟨0, derivable_of_contains hc, load_pos (by simpa using (hpieces p hp).1)⟩
    · have hmem : x ∈ us := hps.mem_iff.1 (List.mem_flatten.2 ⟨_, hp, List.mem_singleton_self x⟩)
      exact ⟨T.levels x, hargs x ((Theory.perm_append_subset hsplit).2 x hmem) hx, by simp [load]⟩

end Powers

/-! ## As many levels as the message has -/

section Lowest

variable (hT : T.Standard) {f : Symbol} {as : List Term}

include hT

theorem lowest_flat (hf : T.isAssoc f = true) (ht : T.Message (.app f as))
    (hargs : ∀ a ∈ as, K.Lowest T a) : K.Lowest T (.app f as) := by
  intro h
  obtain ⟨unit, Reduced, hassoc, hr, htwo, hflat⟩ := Theory.exists_associates hf ht
  have hne : as ≠ [] := List.ne_nil_of_length_pos (by omega)
  rcases h.cases with hall | ⟨g, bs, parts, hbs, hparts, -⟩
  · exact hall _
  cases hbs
  rw [← hflat] at ht h
  rw [Theory.levels_assoc hf, ← hflat]
  exact derivable_of_covers hassoc hr hne (hassoc.few hparts) (covers_of_makes hassoc hT hr hne ht h)
    hargs

theorem lowest_args (hf : T.isAssoc f = false) (hexp : ¬(T.algebras.exponents = true ∧ f = .exp))
    (ht : T.Message (.app f as)) (hargs : ∀ a ∈ as, K.Lowest T a) : K.Lowest T (.app f as) := by
  intro h
  rcases h.cases with hall | ⟨g, bs, parts, hbs, hparts, hmade⟩
  · exact hall _
  cases hbs
  cases (Theory.splits_of_mem_decompose hT ht hparts).eq_args hf hexp
  rw [Theory.levels_app hf hexp]
  refine derivable_of_decompose hparts fun a ha => derivable_le (hargs a ha (hmade a ha)) ?_
  exact List.le_max_of_le (List.mem_map_of_mem ha) le_rfl

theorem lowest_power (ha : T.algebras.exponents = true) {b e : Term}
    (ht : T.Message (.app .exp [b, e])) (hb : K.Lowest T b) (he : K.Lowest T e)
    (hfactors : ∀ x ∈ Exponent.factors e, K.Lowest T x) : K.Lowest T (.app .exp [b, e]) := by
  intro h
  rw [Theory.levels_exp ha]
  by_cases hlen : (Exponent.factors e).length ≤ Exponent.maxSplitFactors
  · rw [if_pos hlen]
    have helement := (ht.args e (by simp)).normal.exponent ha
    obtain ⟨b', e', hbe, -, hne⟩ := (ht.normal.exponent_root ha rfl).exp rfl
    cases hbe
    have hderivable := derivable_of_coversPower ha helement.reduced hlen
      (coversPower_of_makes ha hT ht h) hb hfactors
    rwa [helement.product_factors, Exponent.raise, if_neg hne] at hderivable
  · rw [if_neg hlen]
    rcases h.cases with hall | ⟨g, bs, parts, hbs, hparts, hmade⟩
    · exact hall _
    cases hbs
    cases (Theory.eq_or_length_le_of_mem_decompose_exp ha hparts).resolve_right hlen
    rw [List.forall_mem_cons, List.forall_mem_singleton] at hmade
    refine derivable_of_decompose hparts (List.forall_mem_cons.2 ⟨?_, List.forall_mem_singleton.2 ?_⟩)
    · exact derivable_le (hb hmade.1) (Nat.le_max_left ..)
    · exact derivable_le (he hmade.2) (Nat.le_max_right ..)

/-- The factors are carried along since powers are built from those of their exponents. -/
theorem lowest_factors (ht : T.Message t) : K.Lowest T t ∧ ∀ x ∈ Exponent.factors t, K.Lowest T x := by
  induction t using Term.induction_args with
  | var v => exact absurd ht.ground (by simp [Term.isGround])
  | name n =>
    have hname : K.Lowest T (.name n) := fun h => by
      rcases h.cases with hall | ⟨f, as, parts, ⟨⟩, -⟩
      exact hall _
    exact ⟨hname, List.forall_mem_singleton.2 hname⟩
  | app f as ih =>
    have hargs : ∀ a ∈ as, K.Lowest T a ∧ ∀ x ∈ Exponent.factors a, K.Lowest T x := fun a ha =>
      ih a ha (ht.args a ha)
    have hroot : K.Lowest T (.app f as) := by
      by_cases hf : T.isAssoc f = true
      · exact lowest_flat hT hf ht fun a ha => (hargs a ha).1
      by_cases hexp : T.algebras.exponents = true ∧ f = .exp
      · obtain ⟨ha, rfl⟩ := hexp
        obtain ⟨b, e, rfl, -⟩ := (ht.normal.exponent_root ha rfl).exp rfl
        obtain ⟨he, hfactors⟩ := hargs e (by simp)
        exact lowest_power hT ha ht (hargs b (by simp)).1 he hfactors
      · exact lowest_args hT (Bool.eq_false_iff.2 hf) hexp ht fun a ha => (hargs a ha).1
    refine ⟨hroot, ?_⟩
    rw [Exponent.factors]
    split_ifs
    · exact fun a ha => (hargs a ha).1
    · exact List.forall_mem_nil _
    · exact List.forall_mem_singleton.2 hroot

/-- A derivable message is derivable in as many levels as it has. -/
theorem Makes.derivable (ht : T.Message t) (h : K.Makes T t) (hn : T.levels t ≤ n) :
    K.derivable T n t = true :=
  derivable_le ((lowest_factors hT ht).1 h) hn

end Lowest

end Knowledge

end ProtocolProver
