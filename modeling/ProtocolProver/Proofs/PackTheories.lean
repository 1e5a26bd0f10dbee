import ProtocolProver.Proofs.Equality
import ProtocolProver.Surface.Compile

/-!
# Theories of packs

However packs are loaded and functions declared, symbols keep their declarations, and every rule that
a pack brings is named after the destructor it is for (`Assembled.rules`). The theories that come of
this are standard (`Assembled.standard`), so their normal forms decide equality
(`normalize_decides_equality`).
-/

namespace ProtocolProver

/-! ## Declarations -/

namespace Signature

/-- Every symbol of the first signature is declared in the same way in the second. -/
def Le (sig sig' : Signature) : Prop := ∀ f d, sig.get? f = some d → sig'.get? f = some d

theorem Le.refl (sig : Signature) : sig.Le sig := fun _ _ h => h

theorem Le.trans {sig₁ sig₂ sig₃ : Signature} (h : sig₁.Le sig₂) (h' : sig₂.Le sig₃) :
    sig₁.Le sig₃ := fun f d hd => h' f d (h f d hd)

theorem declare_spec {sig sig' : Signature} {f : Symbol} {name : String} {arity : Nat}
    {visibility : Visibility} (h : sig.declare name arity visibility = .ok (f, sig')) :
    sig.Le sig' ∧ sig'.get? f = some ⟨name, arity, visibility⟩ := by
  unfold declare at h
  split at h
  · split at h
    · cases h
      exact ⟨.refl _, ‹_›⟩
    · cases h
  · cases h
    refine ⟨fun g d hd => ?_, by simp [get?, size]⟩
    have hlt : g.index < sig.symbols.length := (List.getElem?_eq_some_iff.1 hd).1
    exact (List.getElem?_append_left hlt).trans hd

end Signature

/-! ## Loading -/

namespace Pack

theorem run_bind_ok {α β : Type} {x : ExceptT ModelError (StateM Signature) α}
    {g : α → ExceptT ModelError (StateM Signature) β} {sig sig' : Signature} {b : β}
    (h : (x >>= g).run.run sig = (.ok b, sig')) :
    ∃ a sig₁, x.run.run sig = (.ok a, sig₁) ∧ (g a).run.run sig₁ = (.ok b, sig') := by
  rw [ExceptT.run_bind, StateT.run_bind] at h
  rcases hx : x.run.run sig with ⟨a | a, sig₁⟩
  · rw [hx] at h
    cases h
  · rw [hx] at h
    exact ⟨a, sig₁, rfl, h⟩

theorem run_declare_ok {name : String} {arity : Nat} {sig sig' : Signature} {f : Symbol}
    (h : (declare name arity).run.run sig = (.ok f, sig')) :
    sig.Le sig' ∧ sig'.get? f = some ⟨name, arity, .pub⟩ := by
  have hd : sig.declare name arity .pub = .ok (f, sig') := by
    obtain ⟨_, _, hget, h⟩ := run_bind_ok h
    cases hget
    cases hdecl : sig.declare name arity .pub with
    | error e => rw [hdecl] at h; cases h
    | ok p => rw [hdecl] at h; cases h; rfl
  exact Signature.declare_spec hd

end Pack

/-- The rules of packs, in a signature that declares their symbols. -/
inductive PackRule (sig : Signature) : Reduction → Prop
  | verify {sign verify pk ok : Symbol} (hsign : sig.get? sign = some ⟨"sign", 2, .pub⟩)
      (hverify : sig.get? verify = some ⟨"verify", 3, .pub⟩)
      (hpk : sig.get? pk = some ⟨"pk", 1, .pub⟩) (hok : sig.get? ok = some ⟨"true", 0, .pub⟩) :
      PackRule sig ⟨"verify", .app verify [.app sign [.var (.msg "m"), .var (.msg "k")],
        .var (.msg "m"), .app pk [.var (.msg "k")]], .const ok⟩
  | getMessage {sign getMessage : Symbol} (hsign : sig.get? sign = some ⟨"sign", 2, .pub⟩)
      (hget : sig.get? getMessage = some ⟨"getMessage", 1, .pub⟩) :
      PackRule sig ⟨"getMessage", .app getMessage [.app sign [.var (.msg "m"), .var (.msg "k")]],
        .var (.msg "m")⟩
  | sdec {senc sdec : Symbol} (hsenc : sig.get? senc = some ⟨"senc", 2, .pub⟩)
      (hsdec : sig.get? sdec = some ⟨"sdec", 2, .pub⟩) :
      PackRule sig ⟨"sdec", .app sdec [.app senc [.var (.msg "m"), .var (.msg "k")],
        .var (.msg "k")], .var (.msg "m")⟩
  | adec {aenc adec pk : Symbol} (haenc : sig.get? aenc = some ⟨"aenc", 2, .pub⟩)
      (hadec : sig.get? adec = some ⟨"adec", 2, .pub⟩) (hpk : sig.get? pk = some ⟨"pk", 1, .pub⟩) :
      PackRule sig ⟨"adec", .app adec [.app aenc [.var (.msg "m"), .app pk [.var (.msg "k")]],
        .var (.msg "k")], .var (.msg "m")⟩

theorem PackRule.mono {sig sig' : Signature} (hle : sig.Le sig') {r : Reduction}
    (h : PackRule sig r) : PackRule sig' r := by
  cases h with
  | verify h₁ h₂ h₃ h₄ => exact .verify (hle _ _ h₁) (hle _ _ h₂) (hle _ _ h₃) (hle _ _ h₄)
  | getMessage h₁ h₂ => exact .getMessage (hle _ _ h₁) (hle _ _ h₂)
  | sdec h₁ h₂ => exact .sdec (hle _ _ h₁) (hle _ _ h₂)
  | adec h₁ h₂ h₃ => exact .adec (hle _ _ h₁) (hle _ _ h₂) (hle _ _ h₃)

/-- A pack that is loaded declares its symbols and brings rules of packs. -/
theorem Pack.load_spec {name : String} {sig sig' : Signature} {pack : Pack}
    (h : (Pack.load name).run.run sig = (.ok pack, sig')) :
    sig.Le sig' ∧ ∀ r ∈ pack.equations, PackRule sig' r := by
  unfold Pack.load at h
  simp only at h
  split at h
  · obtain ⟨_, _, h₁, h⟩ := run_bind_ok h
    cases h
    exact ⟨(run_declare_ok h₁).1, by simp⟩
  · obtain ⟨sign, _, h₁, h⟩ := run_bind_ok h
    obtain ⟨verify, _, h₂, h⟩ := run_bind_ok h
    obtain ⟨pk, _, h₃, h⟩ := run_bind_ok h
    obtain ⟨getMessage, _, h₄, h⟩ := run_bind_ok h
    obtain ⟨ok, _, h₅, h⟩ := run_bind_ok h
    cases h
    obtain ⟨⟨l₁, d₁⟩, l₂, d₂⟩ := And.intro (run_declare_ok h₁) (run_declare_ok h₂)
    obtain ⟨⟨l₃, d₃⟩, l₄, d₄⟩ := And.intro (run_declare_ok h₃) (run_declare_ok h₄)
    obtain ⟨l₅, d₅⟩ := run_declare_ok h₅
    have l₄₅ := l₄.trans l₅
    have l₃₅ := l₃.trans l₄₅
    have l₂₅ := l₂.trans l₃₅
    refine ⟨l₁.trans l₂₅, ?_⟩
    simp only [List.mem_cons, List.not_mem_nil, or_false]
    rintro r (rfl | rfl)
    · exact .verify (l₂₅ _ _ d₁) (l₃₅ _ _ d₂) (l₄₅ _ _ d₃) d₅
    · exact .getMessage (l₂₅ _ _ d₁) (l₅ _ _ d₄)
  · obtain ⟨senc, _, h₁, h⟩ := run_bind_ok h
    obtain ⟨sdec, _, h₂, h⟩ := run_bind_ok h
    cases h
    obtain ⟨⟨l₁, d₁⟩, l₂, d₂⟩ := And.intro (run_declare_ok h₁) (run_declare_ok h₂)
    refine ⟨l₁.trans l₂, ?_⟩
    simp only [List.mem_cons, List.not_mem_nil, or_false]
    rintro r rfl
    exact .sdec (l₂ _ _ d₁) d₂
  · obtain ⟨aenc, _, h₁, h⟩ := run_bind_ok h
    obtain ⟨adec, _, h₂, h⟩ := run_bind_ok h
    obtain ⟨pk, _, h₃, h⟩ := run_bind_ok h
    cases h
    obtain ⟨⟨l₁, d₁⟩, l₂, d₂⟩ := And.intro (run_declare_ok h₁) (run_declare_ok h₂)
    obtain ⟨l₃, d₃⟩ := run_declare_ok h₃
    have l₂₃ := l₂.trans l₃
    refine ⟨l₁.trans l₂₃, ?_⟩
    simp only [List.mem_cons, List.not_mem_nil, or_false]
    rintro r rfl
    exact .adec (l₂₃ _ _ d₁) (l₃ _ _ d₂) d₃
  · cases h
    exact ⟨.refl _, by simp⟩
  · cases h
    exact ⟨.refl _, by simp⟩
  · cases h
    exact ⟨.refl _, by simp⟩
  · cases h

/-! ## Assembling a theory -/

/-- What is reached by loading packs and declaring functions, in any order. -/
inductive Assembled : Pack → Signature → Prop
  | builtin : Assembled {} .builtin
  | load {pack more : Pack} {sig sig' : Signature} {name : String} (h : Assembled pack sig)
      (hload : (Pack.load name).run.run sig = (.ok more, sig')) : Assembled (pack.merge more) sig'
  | declare {pack : Pack} {sig sig' : Signature} {name : String} {arity : Nat}
      {visibility : Visibility} {f : Symbol} (h : Assembled pack sig)
      (hdeclare : sig.declare name arity visibility = .ok (f, sig')) : Assembled pack sig'

theorem mem_merge {p q : Pack} {r : Reduction} (h : r ∈ (p.merge q).equations) :
    r ∈ p.equations ∨ r ∈ q.equations := by
  unfold Pack.merge at h
  simp only at h
  generalize p.equations = es, q.equations = qs at h ⊢
  induction qs generalizing es with
  | nil => exact .inl h
  | cons e qs ih =>
    rw [List.foldl_cons] at h
    rcases ih _ h with h | h
    · split at h
      · exact .inl h
      · rcases List.mem_append.1 h with h | h
        · exact .inl h
        · exact .inr (by simp_all)
    · exact .inr (List.mem_cons_of_mem e h)

theorem nodup_merge {p q : Pack} (h : (p.equations.map (·.name)).Nodup) :
    ((p.merge q).equations.map (·.name)).Nodup := by
  unfold Pack.merge
  simp only
  generalize p.equations = es at h ⊢
  induction q.equations generalizing es with
  | nil => exact h
  | cons e qs ih =>
    refine ih _ ?_
    beta_reduce
    split
    · exact h
    · rename_i hnew
      simp only [List.any_eq_true, beq_iff_eq, not_exists, not_and] at hnew
      rw [List.map_append]
      exact List.nodup_append.2 ⟨h, by simp, by simpa using hnew⟩

namespace Assembled

variable {pack : Pack} {sig : Signature}

theorem builtin_le (h : Assembled pack sig) : Signature.builtin.Le sig := by
  induction h with
  | builtin => exact .refl _
  | load _ hload ih => exact ih.trans (Pack.load_spec hload).1
  | declare _ hdeclare ih => exact ih.trans (Signature.declare_spec hdeclare).1

theorem rules (h : Assembled pack sig) : ∀ r ∈ pack.equations, PackRule sig r := by
  induction h with
  | builtin => exact nofun
  | load _ hload ih =>
    obtain ⟨hle, hmore⟩ := Pack.load_spec hload
    intro r hr
    rcases mem_merge hr with hr | hr
    · exact (ih r hr).mono hle
    · exact hmore r hr
  | declare _ hdeclare ih => exact fun r hr => (ih r hr).mono (Signature.declare_spec hdeclare).1

theorem nodup (h : Assembled pack sig) : (pack.equations.map (·.name)).Nodup := by
  induction h with
  | builtin => exact .nil
  | load _ _ ih => exact nodup_merge ih
  | declare _ _ ih => exact ih

end Assembled

theorem Theory.ofRules_eq_ok {sig : Signature} {rules : List Reduction} {algebras : Algebras}
    {T : Theory} (h : Theory.ofRules sig rules algebras = .ok T) :
    T = ⟨sig, algebras, Reduction.projections ++ rules⟩ := by
  unfold Theory.ofRules at h
  cases hv : rules.forM Reduction.validate with
  | error e => rw [hv] at h; cases h
  | ok _ =>
    rw [hv] at h
    simp only [bind, Except.bind] at h
    split at h
    · cases h
    · cases h
      rfl

/-- The names of the symbols that an algebra can own. -/
def algebraicNames : List String := ["exp", "mult", "inv", "one", "xor", "zero", "union"]

/-- The names of the symbols that a rule of a pack or of pairs can be for. -/
def destructorNames : List String := ["fst", "snd", "verify", "getMessage", "sdec", "adec"]

namespace Assembled

variable {pack : Pack} {T : Theory} (h : Assembled pack T.signature)
  (hrules : T.rules = Reduction.projections ++ pack.equations)

include h

theorem owner?_eq_none {f : Symbol} {d : Declaration} (hf : T.signature.get? f = some d)
    (hd : d.name ∉ algebraicNames) : T.algebras.owner? f = none := by
  have owned : ∀ g : Symbol, (∃ e, Signature.builtin.get? g = some e ∧ e.name ∈ algebraicNames) →
      f ≠ g := by
    rintro g ⟨e, hg, he⟩ rfl
    cases hf.symm.trans (h.builtin_le _ _ hg)
    exact hd he
  have hexp := owned .exp ⟨_, rfl, by decide⟩
  have hmult := owned .mult ⟨_, rfl, by decide⟩
  have hinv := owned .inv ⟨_, rfl, by decide⟩
  have hone := owned .one ⟨_, rfl, by decide⟩
  have hxor := owned .xor ⟨_, rfl, by decide⟩
  have hzero := owned .zero ⟨_, rfl, by decide⟩
  have hunion := owned .union ⟨_, rfl, by decide⟩
  simp [Algebras.owner?, Exponent.owns, ExclusiveOr.owns, Multiset.owns, *]

include hrules

theorem head_declared {r : Reduction} (hr : r ∈ T.rules) :
    ∃ f d, r.lhs.head? = some f ∧ T.signature.get? f = some d ∧ d.name = r.name ∧
      r.name ∈ destructorNames := by
  rw [hrules, List.mem_append] at hr
  rcases hr with hr | hr
  · simp only [Reduction.projections, List.mem_cons, List.not_mem_nil, or_false] at hr
    rcases hr with rfl | rfl
    · exact ⟨_, _, rfl, h.builtin_le .fst _ rfl, rfl, by decide⟩
    · exact ⟨_, _, rfl, h.builtin_le .snd _ rfl, rfl, by decide⟩
  · cases h.rules r hr with
    | verify _ hv => exact ⟨_, _, rfl, hv, rfl, by simp [destructorNames]⟩
    | getMessage _ hg => exact ⟨_, _, rfl, hg, rfl, by simp [destructorNames]⟩
    | sdec _ hs => exact ⟨_, _, rfl, hs, rfl, by simp [destructorNames]⟩
    | adec _ ha => exact ⟨_, _, rfl, ha, rfl, by simp [destructorNames]⟩

theorem isConstructor {f : Symbol} {d : Declaration} (hf : T.signature.get? f = some d)
    (ha : d.name ∉ algebraicNames) (hd : d.name ∉ destructorNames) : T.IsConstructor f := by
  refine ⟨h.owner?_eq_none hf ha, fun r hr hhead => hd ?_⟩
  obtain ⟨g, e, hg, he, hname, hmem⟩ := h.head_declared hrules hr
  cases hg.symm.trans hhead
  cases he.symm.trans hf
  rwa [hname]

theorem nodup_rules : (T.rules.map (·.name)).Nodup := by
  rw [hrules, List.map_append]
  refine List.nodup_append.2 ⟨by decide, h.nodup, fun n hn n' hn' hne => ?_⟩
  obtain ⟨r, hr, rfl⟩ := List.mem_map.1 hn'
  subst hne
  cases h.rules r hr <;> simp [Reduction.projections] at hn

theorem standardRule {r : Reduction} (hr : r ∈ T.rules) : T.StandardRule r := by
  have arity : ∀ {f d}, T.signature.get? f = some d → T.signature.arity f = d.arity :=
    fun hf => by rw [Signature.arity, hf]; rfl
  have var : ∀ x, (Term.var (.msg x)).Has T.patternShape := fun x => .var rfl
  have app : ∀ {f d} (as : List Term), T.signature.get? f = some d → d.name ∉ algebraicNames →
      d.name ∉ destructorNames → as.length = d.arity → (∀ a ∈ as, a.Has T.patternShape) →
        (Term.app f as).Has T.patternShape := fun _ hf ha hd hn has =>
    .app ⟨h.isConstructor hrules hf ha hd, hn.trans (arity hf).symm⟩ has
  have lhs : ∀ {f d} {ps : List Term}, T.signature.get? f = some d → d.name ∉ algebraicNames →
      ps.length = d.arity → (∀ p ∈ ps, p.Has T.patternShape) →
        ∃ g qs, Term.app f ps = .app g qs ∧ T.algebras.owner? g = none ∧
          qs.length = T.signature.arity g ∧ ∀ q ∈ qs, q.Has T.patternShape := fun hf ha hn hps =>
    ⟨_, _, rfl, h.owner?_eq_none hf ha, hn.trans (arity hf).symm, hps⟩
  have hpair : (Term.pair (.var (.msg "x")) (.var (.msg "y"))).Has T.patternShape :=
    app _ (h.builtin_le .pair _ rfl) (by decide) (by decide) rfl (by simp [var])
  rw [hrules, List.mem_append] at hr
  rcases hr with hr | hr
  · simp only [Reduction.projections, List.mem_cons, List.not_mem_nil, or_false] at hr
    rcases hr with rfl | rfl
    · exact ⟨lhs (h.builtin_le .fst _ rfl) (by decide) rfl (by simpa using hpair),
        .inl ⟨_, by decide, rfl⟩⟩
    · exact ⟨lhs (h.builtin_le .snd _ rfl) (by decide) rfl (by simpa using hpair),
        .inl ⟨_, by decide, rfl⟩⟩
  · cases h.rules r hr with
    | verify hsign hverify hpk hok =>
      have hsigned := app [.var (.msg "m"), .var (.msg "k")] hsign (by decide) (by decide) rfl
        (by simp [var])
      have hkey := app [.var (.msg "k")] hpk (by decide) (by decide) rfl (by simp [var])
      refine ⟨lhs hverify (by decide) rfl (by simp [var, hsigned, hkey]), .inr ⟨_, rfl, ?_, ?_⟩⟩
      · exact h.isConstructor hrules hok (by decide) (by decide)
      · exact arity hok
    | getMessage hsign hget =>
      have hsigned := app [.var (.msg "m"), .var (.msg "k")] hsign (by decide) (by decide) rfl
        (by simp [var])
      exact ⟨lhs hget (by decide) rfl (by simpa using hsigned), .inl ⟨_, .head _, rfl⟩⟩
    | sdec hsenc hsdec =>
      have hsealed := app [.var (.msg "m"), .var (.msg "k")] hsenc (by decide) (by decide) rfl
        (by simp [var])
      exact ⟨lhs hsdec (by decide) rfl (by simp [var, hsealed]), .inl ⟨_, .head _, rfl⟩⟩
    | @adec _ _ pk haenc hadec hpk =>
      have hkey := app [.var (.msg "k")] hpk (by decide) (by decide) rfl (by simp [var])
      have hsealed := app [.var (.msg "m"), .app pk [.var (.msg "k")]] haenc (by decide) (by decide)
        rfl (by simp only [List.forall_mem_cons]; exact ⟨var _, hkey, List.forall_mem_nil _⟩)
      refine ⟨lhs hadec (by decide) rfl ?_, .inl ⟨_, .head _, rfl⟩⟩
      simp only [List.forall_mem_cons]
      exact ⟨hsealed, var _, List.forall_mem_nil _⟩

theorem standard : T.Standard where
  builtin f hf := by
    obtain ⟨d, hd⟩ : ∃ d, Signature.builtin.get? f = some d :=
      ⟨_, List.getElem?_eq_getElem hf⟩
    rw [hd, h.builtin_le f d hd]
  rule _ hr := h.standardRule hrules hr
  unique r hr s hs heq := by
    obtain ⟨f, d, hf, hd, hname, -⟩ := h.head_declared hrules hr
    obtain ⟨g, e, hg, he, hname', -⟩ := h.head_declared hrules hs
    cases hf.symm.trans (heq.trans hg)
    cases hd.symm.trans he
    have hrs := List.inj_on_of_nodup_map (h.nodup_rules hrules) hr hs (hname.symm.trans hname')
    exact ⟨congrArg _ hrs, congrArg _ hrs⟩

end Assembled

/-! ## Deciding equality -/

/-- In every theory that is assembled from packs and free functions, two well-formed terms have the
same normal form exactly if the laws make them equal, and a normal form may be taken before a
substitution as well as after it. -/
theorem normalize_decides_equality {pack : Pack} {sig : Signature} {T : Theory}
    (hp : Assembled pack sig) (hT : Theory.ofRules sig pack.equations pack.algebras = .ok T) :
    (∀ s t, T.WellFormed s → T.WellFormed t → (T.normalize s = T.normalize t ↔ T.Equal s t)) ∧
    ∀ (σ : Subst) t, (∀ v, T.WellFormed (σ.value v)) → T.WellFormed t →
      T.normalize (σ.apply (T.normalize t)) = T.normalize (σ.apply t) := by
  obtain rfl := Theory.ofRules_eq_ok hT
  have hstandard := Assembled.standard (T := ⟨sig, pack.algebras, _⟩) hp rfl
  have flat : ∀ {t}, Theory.WellFormed ⟨sig, pack.algebras, _⟩ t → Theory.Flat _ t :=
    Theory.flat_of_wellFormed fun _ => hstandard.arity_assoc
  exact ⟨fun s t => hstandard.normalize_eq_iff,
    fun σ t hσ ht => hstandard.normalize_mapVars (flat ht) fun v => flat (hσ v)⟩

/-- The built-in symbols, symmetric encryption and a key derivation function. -/
def agreementSignature : Signature :=
  ⟨Signature.builtin.symbols ++ [⟨"senc", 2, .pub⟩, ⟨"sdec", 2, .pub⟩, ⟨"kdf", 1, .priv⟩]⟩

/-- Symmetric encryption, with exponents for the keys. -/
def agreementPack : Pack where
  equations := [⟨"sdec", .app ⟨11⟩ [.app ⟨10⟩ [.var (.msg "m"), .var (.msg "k")], .var (.msg "k")],
    .var (.msg "m")⟩]
  algebras := { exponents := true }

theorem assembled_agreement : Assembled agreementPack agreementSignature :=
  @Assembled.declare _ _ _ "kdf" 1 .priv _
    (@Assembled.load _ _ _ _ "diffie-hellman"
      (@Assembled.load _ _ _ _ "symmetric-encryption" .builtin rfl) rfl) rfl

def agreementTheory : Theory :=
  ⟨agreementSignature, agreementPack.algebras, Reduction.projections ++ agreementPack.equations⟩

/-- What is sealed under the key of one party is opened by the key that the other computes. -/
theorem normalize_decides_equality_agreement :
    let T : Theory := agreementTheory
    let key (x y : String) : Term :=
      .app ⟨12⟩ [.app .exp [.app .exp [.pubName "g", .var (.fresh x)], .var (.fresh y)]]
    let opened : Term := .app ⟨11⟩ [.app ⟨10⟩ [.var (.msg "m"), key "x" "y"], key "y" "x"]
    let σ := Subst.single (.fresh "y") (.app .inv [.var (.fresh "x")])
    Assembled agreementPack agreementSignature ∧
    Theory.ofRules agreementSignature agreementPack.equations agreementPack.algebras = .ok T ∧
    T.WellFormed opened ∧ T.Equal opened (.var (.msg "m")) ∧
    T.normalize (σ.apply (T.normalize (key "x" "y"))) = T.normalize (σ.apply (key "x" "y")) := by
  intro T key opened σ
  have hT : Theory.ofRules agreementSignature agreementPack.equations agreementPack.algebras =
      .ok T := rfl
  have hkey : ∀ x y, T.WellFormed (key x y) := fun x y =>
    .app rfl (by simp [Term.pubName, Theory.shape, T, agreementTheory, Signature.arity, Signature.get?,
      agreementSignature, Signature.builtin, Symbol.exp])
  have hwf : T.WellFormed opened := by
    refine .app rfl ?_
    simp only [List.forall_mem_cons]
    refine ⟨.app rfl ?_, hkey _ _, List.forall_mem_nil _⟩
    simp only [List.forall_mem_cons]
    exact ⟨.var trivial, hkey _ _, List.forall_mem_nil _⟩
  have hσ : ∀ v, T.WellFormed (σ.value v) := by
    intro v
    by_cases hv : v = .fresh "y"
    · rw [hv]
      exact .app rfl (by simp [Theory.shape])
    · rw [Subst.value, show σ.get? v = none by simp [σ, Subst.single, SortedMap.get?_insert, hv,
        SortedMap.get?_empty]]
      exact .var trivial
  obtain ⟨decides, stable⟩ := normalize_decides_equality assembled_agreement hT
  exact ⟨assembled_agreement, hT, hwf, (decides _ _ hwf (.var trivial)).1 (by decide +kernel),
    stable σ _ hσ (hkey _ _)⟩

end ProtocolProver
