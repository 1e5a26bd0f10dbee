import ProtocolProver.Proofs.Unifiers

/-!
# Variables that are drawn from a supply

A variable that a solved system leaves open becomes a name that shows its name and its index, and
of its sort only whether it is fresh. Variables that are drawn together share an index, so they keep
apart under these names if no message and public variables of one name are drawn together
(`Unmixed`). `Stock` says that all variables in use keep apart. Unification and deconstruction bring in
new variables only as copies of equations of the theory or one by one, so they keep this
(`Theory.Apart.supplies`).
-/

namespace ProtocolProver

/-! ## The names of open variables -/

theorem Name.generated_inj {x y : Var} (h : Name.generated x = Name.generated y) :
    x.name = y.name ∧ x.idx = y.idx := by
  have hdigits : ∀ n : Nat, ∀ c ∈ (Nat.toDigits 10 n).reverse, (c != '.') = true := by
    intro n c hc
    have hdigit := Nat.isDigit_of_mem_toDigits (by omega) (by omega) (List.mem_reverse.1 hc)
    exact bne_iff_ne.2 fun he => absurd (he ▸ hdigit) (by decide)
  have htext : ∀ z : Var, (generatedMark.toString ++ z.name ++ "." ++ toString z.idx).toList =
      '@' :: (z.name.toList ++ '.' :: Nat.toDigits 10 z.idx) := by
    intro z
    simp [generatedMark]
  have h := congrArg String.toList (Name.pub.inj h)
  rw [htext, htext] at h
  have h := congrArg List.reverse (List.cons.inj h).2
  simp only [List.reverse_append, List.reverse_cons, List.append_assoc, List.singleton_append] at h
  -- Read from the end, the digits go as far as the first point.
  have hidx : Nat.toDigits 10 x.idx = Nat.toDigits 10 y.idx := by
    have := congrArg (List.takeWhile (· != '.')) h
    rw [List.takeWhile_append_of_pos (hdigits _), List.takeWhile_append_of_pos (hdigits _)] at this
    simpa using this
  have hname : x.name.toList = y.name.toList := by
    rw [hidx] at h
    simpa using h
  refine ⟨String.toList_inj.1 hname, ?_⟩
  rw [← Nat.ofDigitChars_toDigits (b := 10) (n := x.idx) (by omega) (by omega), hidx,
    Nat.ofDigitChars_toDigits (by omega) (by omega)]

/-- Different variables of one realization are a message variable and a public one. -/
theorem Var.eq_or_mixed {x y : Var} (h : x.realization = y.realization) : x = y ∨
    x.name = y.name ∧ x.idx = y.idx ∧ (x.sort = .msg ∧ y.sort = .pub ∨ x.sort = .pub ∧ y.sort = .msg) := by
  obtain ⟨a, i, s⟩ := x
  obtain ⟨b, j, u⟩ := y
  cases s <;> cases u <;> simp only [realization, Term.name.injEq] at h
  case fresh.fresh =>
    cases h
    exact .inl rfl
  case fresh.msg | fresh.pub | msg.fresh | pub.fresh => cases h
  case msg.msg | msg.pub | pub.msg | pub.pub =>
    obtain ⟨rfl, rfl⟩ : a = b ∧ i = j := Name.generated_inj h
    simp

theorem Var.idx_eq_of_realization {x y : Var} (h : x.realization = y.realization) : x.idx = y.idx := by
  rcases eq_or_mixed h with rfl | ⟨-, hidx, -⟩
  · rfl
  · exact hidx

/-- No message variable has the name of a public one. -/
def Unmixed (vs : List Var) : Prop :=
  ∀ v ∈ vs, ∀ w ∈ vs, v.name = w.name → v.sort = .msg → w.sort ≠ .pub

instance (vs : List Var) : Decidable (Unmixed vs) :=
  inferInstanceAs (Decidable (∀ v ∈ vs, ∀ w ∈ vs, v.name = w.name → v.sort = .msg → w.sort ≠ .pub))

theorem Unmixed.eq_of_realization {vs : List Var} (h : Unmixed vs) {v w : Var} (hv : v ∈ vs)
    (hw : w ∈ vs) (he : v.realization = w.realization) : v = w := by
  rcases Var.eq_or_mixed he with he | ⟨hname, -, ⟨hmsg, hpub⟩ | ⟨hpub, hmsg⟩⟩
  · exact he
  · exact absurd hpub (h v hv w hw hname hmsg)
  · exact absurd hpub (h w hw v hv hname.symm hmsg)

/-! ## The variables in use -/

/-- Terms with variables in a set. -/
def Shape.over (A : Set Var) : Shape := ⟨(· ∈ A), fun _ => True, fun _ _ => True⟩

theorem Term.has_over {A : Set Var} {t : Term} : t.Has (.over A) ↔ ∀ x ∈ t.occurrences, x ∈ A :=
  ⟨fun h _ => h.var_of_mem, has_of_occurrences⟩

theorem Term.Has.over_mono {A B : Set Var} (h : A ⊆ B) {t : Term} (ht : t.Has (.over A)) :
    t.Has (.over B) := has_over.2 fun x hx => h (has_over.1 ht x hx)

theorem Term.Has.over_mapVars {A B : Set Var} {t : Term} (ht : t.Has (.over B)) {ρ : Var → Term}
    (hρ : ∀ x ∈ B, (ρ x).Has (.over A)) : (t.mapVars ρ).Has (.over A) :=
  ht.mapVars (fun x hx => hρ x (ht.var_of_mem hx)) (fun _ h => h) fun _ _ h => h

theorem Shape.over_le {A B : Set Var} : (Shape.over A).Le (.over B) ↔ A ⊆ B :=
  ⟨fun h _ hx => Term.has_var.1 (h _ (.var hx)), fun h _ ht => ht.over_mono h⟩

/-- The variables in use keep apart, and none of them is new to the supply. Those of index 0 are the
ones in `L`. -/
structure Stock (L A : Set Var) (s : VarSupply) : Prop where
  pos : 0 < s.next
  below : ∀ x ∈ A, x.idx < s.next
  zero : ∀ x, x ∈ L ↔ x ∈ A ∧ x.idx = 0
  apart : Set.InjOn Var.realization A

namespace Stock

variable {L A : Set Var} {s : VarSupply}

/-- The variables that are drawn together as copies of `vs`. -/
def copies (vs : List Var) (s : VarSupply) : Set Var := {x | ∃ v ∈ vs, v.reindex s.next = x}

theorem mem_copies {vs : List Var} {v : Var} (h : v ∈ vs) : v.reindex s.next ∈ copies vs s :=
  ⟨v, h, rfl⟩

theorem draw (h : Stock L A s) : Stock L A ⟨s.next + 1⟩ where
  pos := Nat.succ_pos _
  below x hx := Nat.lt_succ_of_lt (h.below x hx)
  zero := h.zero
  apart := h.apart

/-- Copies of unmixed variables keep apart from each other and from the variables in use. -/
theorem copy (h : Stock L A s) {vs : List Var} (hvs : Unmixed vs) :
    Stock L (A ∪ copies vs s) ⟨s.next + 1⟩ where
  pos := Nat.succ_pos _
  below := by
    rintro x (hx | ⟨v, -, rfl⟩)
    · exact Nat.lt_succ_of_lt (h.below x hx)
    · exact Nat.lt_succ_self _
  zero x := by
    refine (h.zero x).trans ⟨fun hx => ⟨.inl hx.1, hx.2⟩, ?_⟩
    rintro ⟨hx | ⟨v, -, rfl⟩, hzero⟩
    · exact ⟨hx, hzero⟩
    · exact absurd hzero h.pos.ne'
  apart := by
    have hnew : ∀ x ∈ A, ∀ v : Var, x.realization ≠ (v.reindex s.next).realization := fun x hx v he =>
      (h.below x hx).ne (Var.idx_eq_of_realization he)
    rintro x (hx | ⟨v, hv, rfl⟩) y (hy | ⟨w, hw, rfl⟩) he
    · exact h.apart hx hy he
    · exact absurd he (hnew x hx w)
    · exact absurd he.symm (hnew y hy v)
    · have hcopies : Unmixed (vs.map (Var.reindex s.next)) := by
        simp only [Unmixed, List.forall_mem_map]
        exact hvs
      exact hcopies.eq_of_realization (List.mem_map_of_mem hv) (List.mem_map_of_mem hw) he

end Stock

theorem Stock.draws_freshVar {L A : Set Var} (name : String) (sort : TermSort) :
    Draws .over (Stock L) A (VarSupply.freshVar name sort) fun B x => x ∈ B := by
  intro s hs
  have hvs : Unmixed [⟨name, 0, sort⟩] := by
    simp only [Unmixed, List.forall_mem_singleton]
    exact fun _ hmsg => hmsg ▸ by decide
  exact ⟨_, Shape.over_le.2 Set.subset_union_left, hs.copy hvs,
    .inr (Stock.mem_copies (List.mem_singleton_self _))⟩

/-! ## Unification and deconstruction -/

/-- The theory brings in no variables, and its equations draw unmixed ones. -/
structure Theory.Apart (T : Theory) : Prop where
  covered : ∀ r ∈ T.rules, ∀ x ∈ r.rhs.occurrences, x ∈ r.lhs.occurrences
  unmixed : ∀ r ∈ T.rules, Unmixed r.lhs.occurrences

namespace Theory.Apart

variable {T : Theory} (hT : T.Apart)

include hT

theorem keeps (A : Set Var) : T.Keeps (.over A) where
  exponents _ := ⟨trivial, trivial, trivial, fun _ => trivial⟩
  xor _ := ⟨trivial, fun _ => trivial⟩
  multisets _ _ := trivial
  contract r hr := Term.has_of_occurrences fun x hx => .inr (hT.covered r hr x hx)

theorem draws_renamed {L A : Set Var} {rule : Reduction} (hrule : rule ∈ T.rules) :
    Draws .over (Stock L) A rule.renamed fun B p => p.1.Has (.over B) ∧ p.2.Has (.over B) := by
  intro s hs
  have hcopy : ∀ t : Term, (∀ x ∈ t.occurrences, x ∈ rule.lhs.occurrences) →
      (t.reindex s.next).Has (.over (A ∪ Stock.copies rule.lhs.occurrences s)) := fun t ht =>
    Term.Has.over_mapVars (B := {x | x ∈ rule.lhs.occurrences}) (Term.has_over.2 ht)
      fun x hx => .var (.inr (Stock.mem_copies hx))
  rw [Reduction.renamed_run]
  exact ⟨_, Shape.over_le.2 Set.subset_union_left, hs.copy (hT.unmixed rule hrule), hcopy _ fun _ => id,
    hcopy _ (hT.covered rule hrule)⟩

/-- Solving equations adds to the variables in use, which still keep apart. -/
theorem supplies (L : Set Var) : T.Supplies .over (Stock L) where
  keeps := hT.keeps
  fresh name sort _ := Stock.draws_freshVar name sort
  renamed rule hrule _ s hs := by
    obtain ⟨B, hB, hs, hl, hr⟩ := hT.draws_renamed hrule s hs
    exact ⟨B, hB, hs, hl.args, hr⟩

end Theory.Apart

end ProtocolProver
