import ProtocolProver.Proofs.WrittenWords

/-!
# Values that are read back

`Reads r v a` says that the reader `r` finds `a` in the text of the value `v` with one entry to a
line, wherever the text stands and whatever follows it, as long as the value is not nested deeper
than the bounds allow. Every constructor of readers keeps this: lists (`Reads.list`), pairs
(`Reads.pair`), variants (`Reads.variant_unit`, `Reads.variant_payload`) and records
(`Reads.record`).

Records are put together field by field. `Record.Fits` says that the given fields of an object are
what a record asks for. A field is present (`Fits.field`) or left out (`Fits.default`), and records
are joined by `Fits.seq`.
-/

namespace ProtocolProver.Json

/-! ## Depth -/

mutual

/-- How deep arrays and objects are nested in a value. -/
def depth : Json → Nat
  | .array items => depthItems items + 1
  | .object fields => depthFields fields + 1
  | .null | .bool _ | .number _ | .string _ => 0

def depthItems : List Json → Nat
  | [] => 0
  | v :: vs => max v.depth (depthItems vs)

def depthFields : List (String × Json) → Nat
  | [] => 0
  | (_, v) :: fs => max v.depth (depthFields fs)

end

/-! ## The length of a text -/

@[simp] theorem length_lineOnto (level : Nat) (rest : List Char) :
    (lineOnto level rest).length = 2 * level + rest.length + 1 := by
  simp [lineOnto]

theorem length_stringOnto (s : String) (rest : List Char) :
    rest.length < (stringOnto s rest).length := by
  have hbody : ∀ cs : List Char,
      rest.length < (cs.foldr (fun c rest => escape c ++ rest) ('\x22' :: rest)).length := by
    intro cs
    induction cs with
    | nil => exact Nat.lt_succ_self _
    | cons c cs ih =>
      rw [List.foldr_cons, List.length_append]
      omega
  exact (hbody s.toList).trans (Nat.lt_succ_self _)

mutual

theorem length_prettyOnto (level : Nat) : ∀ (v : Json) (rest : List Char),
    rest.length ≤ (v.prettyOnto level rest).length
  | .null, rest | .bool true, rest | .bool false, rest => by
    simp only [prettyOnto, scalarOnto, List.length_cons]
    omega
  | .number literal, rest => by
    simp only [prettyOnto, scalarOnto, List.length_append]
    omega
  | .string s, rest => (length_stringOnto s rest).le
  | .array [], rest | .object [], rest => by
    simp only [prettyOnto, List.length_cons]
    omega
  | .array (v :: vs), rest => by
    have h := length_prettyItems (level + 1) true (v :: vs) (lineOnto level (']' :: rest))
    simp only [prettyOnto, List.length_cons, length_lineOnto] at h ⊢
    omega
  | .object (f :: fs), rest => by
    have h := length_prettyFields (level + 1) true (f :: fs) (lineOnto level ('\x7d' :: rest))
    simp only [prettyOnto, List.length_cons, length_lineOnto] at h ⊢
    omega

theorem length_prettyItems (level : Nat) (first : Bool) : ∀ (vs : List Json) (rest : List Char),
    rest.length ≤ (prettyItems level first vs rest).length
  | [], rest => le_rfl
  | v :: vs, rest => by
    have hv := length_prettyOnto level v (prettyItems level false vs rest)
    have hvs := length_prettyItems level false vs rest
    cases first <;> simp only [prettyItems, if_true, Bool.false_eq_true, if_false, List.length_cons,
      length_lineOnto] <;> omega

theorem length_prettyFields (level : Nat) (first : Bool) :
    ∀ (fs : List (String × Json)) (rest : List Char),
    rest.length ≤ (prettyFields level first fs rest).length
  | [], rest => le_rfl
  | (k, v) :: fs, rest => by
    have hv := length_prettyOnto level v (prettyFields level false fs rest)
    have hfs := length_prettyFields level false fs rest
    have hk := length_stringOnto k
      (':' :: ' ' :: prettyOnto level v (prettyFields level false fs rest))
    cases first <;> simp only [prettyFields, if_true, Bool.false_eq_true, if_false,
      List.length_cons, length_lineOnto] at hk ⊢ <;> omega

end

theorem length_item_lt (level : Nat) (first : Bool) (v : Json) (vs : List Json) (rest : List Char) :
    (v.prettyOnto level (prettyItems level false vs rest)).length
      < (prettyItems level first (v :: vs) rest).length := by
  cases first <;> simp only [prettyItems, if_true, Bool.false_eq_true, if_false, List.length_cons,
    length_lineOnto] <;> omega

theorem length_items_lt (level : Nat) (first : Bool) (v : Json) (vs : List Json)
    (rest : List Char) :
    (prettyItems level false vs rest).length < (prettyItems level first (v :: vs) rest).length :=
  (length_prettyOnto level v _).trans_lt (length_item_lt level first v vs rest)

theorem length_field_lt (level : Nat) (first : Bool) (k : String) (v : Json)
    (fs : List (String × Json)) (rest : List Char) :
    (v.prettyOnto level (prettyFields level false fs rest)).length
      < (prettyFields level first ((k, v) :: fs) rest).length := by
  have hk := length_stringOnto k
    (':' :: ' ' :: v.prettyOnto level (prettyFields level false fs rest))
  cases first <;> simp only [prettyFields, if_true, Bool.false_eq_true, if_false, List.length_cons,
    length_lineOnto] at hk ⊢ <;> omega

theorem length_fields_lt (level : Nat) (first : Bool) (k : String) (v : Json)
    (fs : List (String × Json)) (rest : List Char) :
    (prettyFields level false fs rest).length
      < (prettyFields level first ((k, v) :: fs) rest).length :=
  (length_prettyOnto level v _).trans_lt (length_field_lt level first k v fs rest)

/-! ## Readers and the values they read -/

/-- The text of a value starts with the given character, which no other word of a text starts
with. -/
structure Starts (v : Json) (c : Char) : Prop where
  notBlank : isBlank c = false
  notEnd : c ≠ ']'
  notNull : c ≠ 'n'
  text : ∀ level rest, ∃ cs, v.prettyOnto level rest = c :: cs

/-- The reader finds the result in the text of the value. -/
structure Reads {α : Type} (r : Reader α) (v : Json) (a : α) : Prop where
  starts : ∃ c, v.Starts c
  run : ∀ (b : Bounds) (level : Nat) (blanks rest : List Char), Blank blanks → Follows rest →
    v.depth ≤ b.depth → (v.prettyOnto level rest).length ≤ b.length →
    r b (blanks ++ v.prettyOnto level rest) = .ok (a, rest)

theorem Starts.peek {v : Json} {c : Char} (hc : v.Starts c) {blanks : List Char} (hb : Blank blanks)
    (level : Nat) (rest : List Char) :
    Json.peek (blanks ++ v.prettyOnto level rest) = .ok (some c, v.prettyOnto level rest) := by
  obtain ⟨cs, hcs⟩ := hc.text level rest
  rw [hcs, peek_blanks hb hc.notBlank]

theorem Starts.peekSome {v : Json} {c : Char} (hc : v.Starts c) {blanks : List Char}
    (hb : Blank blanks) (level : Nat) (rest : List Char) :
    Json.peekSome (blanks ++ v.prettyOnto level rest) = .ok (c, v.prettyOnto level rest) := by
  obtain ⟨cs, hcs⟩ := hc.text level rest
  rw [hcs, peekSome_blanks hb hc.notBlank]

namespace Reads

variable {α β : Type} {r : Reader α} {s : Reader β} {v w : Json} {a : α} {b : β}

theorem here (h : Reads r v a) {b : Bounds} {level : Nat} {rest : List Char} (hrest : Follows rest)
    (hdepth : v.depth ≤ b.depth) (hlength : (v.prettyOnto level rest).length ≤ b.length) :
    r b (v.prettyOnto level rest) = .ok (a, rest) :=
  h.run b level [] rest .nil hrest hdepth hlength

protected theorem map (h : Reads r v a) (f : α → β) : Reads (f <$> r) v (f a) where
  starts := h.starts
  run b level blanks rest hb hrest hdepth hlength :=
    map_read (h.run b level blanks rest hb hrest hdepth hlength)

theorem starts_string (t : String) : (Json.string t).Starts '\x22' where
  notBlank := rfl
  notEnd := by decide
  notNull := by decide
  text _ _ := ⟨_, rfl⟩

protected theorem string (t : String) : Reads Reader.string (.string t) t where
  starts := ⟨_, starts_string t⟩
  run b level blanks rest hb hrest _ _ := by
    change Reader.string b (blanks ++ '\x22' :: (stringOnto t rest).tail) = _
    unfold Reader.string
    rw [bind_scanned (peekSome_blanks hb rfl), if_pos rfl, bind_scanned skip_cons]
    exact scanString_stringOnto t rest

protected theorem bool (t : Bool) : Reads Reader.bool (.bool t) t where
  starts := by
    cases t
    · exact ⟨'f', rfl, by decide, by decide, fun _ _ => ⟨_, rfl⟩⟩
    · exact ⟨'t', rfl, by decide, by decide, fun _ _ => ⟨_, rfl⟩⟩
  run b level blanks rest hb hrest _ _ := by
    unfold Reader.bool
    cases t with
    | false =>
      change (_ : Scanner Bool) (blanks ++ 'f' :: (['a', 'l', 's', 'e'] ++ rest)) = _
      rw [bind_scanned (peekSome_blanks hb rfl), if_neg (by decide), if_pos rfl]
      exact bind_scanned (expect_append ['f', 'a', 'l', 's', 'e'])
    | true =>
      change (_ : Scanner Bool) (blanks ++ 't' :: (['r', 'u', 'e'] ++ rest)) = _
      rw [bind_scanned (peekSome_blanks hb rfl), if_pos rfl]
      exact bind_scanned (expect_append ['t', 'r', 'u', 'e'])

theorem not_special_of_isDigit {c : Char} (h : c.isDigit = true) :
    isBlank c = false ∧ c ≠ ']' ∧ c ≠ 'n' := by
  refine ⟨?_, ?_, ?_⟩
  · by_contra hblank
    simp only [Bool.not_eq_false, isBlank, Bool.or_eq_true, decide_eq_true_eq] at hblank
    rcases hblank with ((rfl | rfl) | rfl) | rfl <;> cases h
  · rintro rfl
    cases h
  · rintro rfl
    cases h

protected theorem nat {n : Nat} (hn : n ≤ maxExact) : Reads Reader.nat (.nat n) n := by
  obtain ⟨c, cs, hcs⟩ := List.exists_cons_of_ne_nil (toString_ne_nil (n := n))
  have hdigit : c.isDigit = true := isDigit_of_mem_toString (hcs ▸ List.mem_cons_self)
  obtain ⟨hblank, hend, hnull⟩ := not_special_of_isDigit hdigit
  have htext : ∀ level rest, (Json.nat n).prettyOnto level rest = c :: (cs ++ rest) :=
    fun level rest => congrArg (· ++ rest) hcs
  refine ⟨⟨c, hblank, hend, hnull, fun level rest => ⟨_, htext level rest⟩⟩, ?_⟩
  intro b level blanks rest hb hrest _ _
  unfold Reader.nat
  rw [htext, bind_scanned (peekSome_blanks hb hblank), if_pos (.inr hdigit), ← List.cons_append,
    ← hcs]
  exact bind_scanned (scanNumber_nat hn hrest)

/-- What is read is not null, so it is not taken for a missing value. -/
protected theorem option (h : Reads r v a) : Reads (Reader.option r) v (some a) where
  starts := h.starts
  run b level blanks rest hb hrest hdepth hlength := by
    obtain ⟨c, hc⟩ := h.starts
    unfold Reader.option
    rw [bind_lift (hc.peek hb level rest), if_neg (by simpa using hc.notNull),
      bind_read (h.here hrest hdepth hlength)]
    rfl

end Reads

/-! ## Arrays -/

theorem Reader.nested_succ {α : Type} (r : Reader α) {b : Bounds} {d : Nat} (hd : d + 1 ≤ b.depth) :
    ∃ b' : Bounds, d ≤ b'.depth ∧ b'.length = b.length ∧ Reader.nested r b = r b' := by
  obtain ⟨n, hn⟩ : ∃ n, b.depth = n + 1 := ⟨b.depth - 1, by omega⟩
  refine ⟨{ b with depth := n }, by simp only; omega, rfl, ?_⟩
  unfold Reader.nested
  rw [hn]

section Arrays

variable {α : Type} {r : Reader α} {v : Json} {a : α} {b : Bounds} {level outer : Nat}
  {rest : List Char}

theorem Follows.items (level outer : Nat) (vs : List Json) (rest : List Char) :
    Follows (prettyItems level false vs (lineOnto outer rest)) := by
  cases vs with
  | nil => exact .line outer rest
  | cons v vs => exact .comma _

theorem endArray_line : Reader.endArray (lineOnto level (']' :: rest)) = .ok ((), rest) := by
  unfold Reader.endArray
  rw [lineOnto_eq, bind_scanned (peekSome_blanks (.line level) rfl), if_pos rfl]
  rfl

theorem Reads.element (h : Reads r v a) (level outer : Nat) (first : Bool) (vs : List Json)
    (rest : List Char) (hdepth : v.depth ≤ b.depth)
    (hlength : (prettyItems level first (v :: vs) (lineOnto outer rest)).length ≤ b.length) :
    Reader.element first r b (prettyItems level first (v :: vs) (lineOnto outer rest)) =
      .ok (some a, prettyItems level false vs (lineOnto outer rest)) := by
  obtain ⟨c, hc⟩ := h.starts
  have hread := h.here (b := b) (Follows.items level outer vs rest) hdepth
    ((length_item_lt level first v vs _).le.trans hlength)
  unfold Reader.element
  cases first with
  | true =>
    simp only [prettyItems, if_true]
    rw [lineOnto_eq level, bind_lift (hc.peekSome (.line level) level _), if_neg hc.notEnd,
      bind_read hread]
    rfl
  | false =>
    simp only [prettyItems, Bool.false_eq_true, if_false]
    rw [bind_lift (peekSome_cons rfl), if_neg (by decide), if_pos rfl, bind_lift skip_cons,
      lineOnto_eq level, bind_lift (hc.peekSome (.line level) level _), if_neg hc.notEnd]
    exact bind_read hread

theorem element_line (first : Bool) :
    Reader.element first r b (lineOnto outer (']' :: rest)) = .ok (none, ']' :: rest) := by
  unfold Reader.element
  rw [lineOnto_eq, bind_lift (peekSome_blanks (.line outer) rfl), if_pos rfl]
  rfl

theorem elements_read {f : α → Json} : ∀ (as : List α) (n : Nat) (first : Bool),
    (∀ a ∈ as, Reads r (f a) a) → depthItems (as.map f) ≤ b.depth →
    (prettyItems level first (as.map f) (lineOnto outer (']' :: rest))).length < n →
    n ≤ b.length + 1 →
    Reader.elements r n first b
        (prettyItems level first (as.map f) (lineOnto outer (']' :: rest))) =
      .ok (as, ']' :: rest)
  | [], n + 1, first, _, _, _, _ => by
    unfold Reader.elements
    rw [List.map_nil, prettyItems, bind_read (element_line first)]
    rfl
  | a :: as, n + 1, first, h, hdepth, hlength, hn => by
    rw [List.map_cons] at hdepth hlength ⊢
    have hitem :=
      (h a List.mem_cons_self).element level outer first (as.map f) (']' :: rest) (b := b)
      (le_trans (le_max_left _ _) hdepth) (by omega)
    have hshort := length_items_lt level first (f a) (as.map f) (lineOnto outer (']' :: rest))
    have ih := elements_read as n false (fun x hx => h x (List.mem_cons_of_mem a hx))
      (le_trans (le_max_right _ _) hdepth) (by omega) (by omega)
    unfold Reader.elements
    rw [bind_read hitem]
    change (Reader.elements r n false >>= fun as => pure (a :: as)) b _ = _
    rw [bind_read ih]
    rfl

end Arrays

theorem starts_array (vs : List Json) : (Json.array vs).Starts '[' where
  notBlank := rfl
  notEnd := by decide
  notNull := by decide
  text _ _ := by
    cases vs
    · exact ⟨_, rfl⟩
    · exact ⟨_, rfl⟩

theorem inArray_read {α : Type} {r : Reader α} {b : Bounds} {a : α} {cs rest : List Char} {d : Nat}
    (hd : d + 1 ≤ b.depth)
    (h : ∀ b' : Bounds, d ≤ b'.depth → b'.length = b.length → ∃ rest', r b' cs = .ok (a, rest') ∧
      Reader.endArray rest' = .ok ((), rest)) :
    Reader.inArray r b ('[' :: cs) = .ok (a, rest) := by
  obtain ⟨b', hdepth, hlength, hnested⟩ := Reader.nested_succ (do
    skip
    let a ← r
    Reader.endArray
    return a) hd
  obtain ⟨rest', hr, hend⟩ := h b' hdepth hlength
  unfold Reader.inArray
  rw [hnested, bind_lift skip_cons, bind_read hr, bind_lift hend]
  rfl

namespace Reads

variable {α β : Type} {r : Reader α} {s : Reader β} {v w : Json}

protected theorem list {as : List α} {f : α → Json} (h : ∀ a ∈ as, Reads r (f a) a) :
    Reads (Reader.list r) (.array (as.map f)) as where
  starts := ⟨_, starts_array _⟩
  run b level blanks rest hb hrest hdepth hlength := by
    unfold Reader.list
    rw [bind_lift ((starts_array _).peekSome hb level rest), if_pos rfl]
    cases as with
    | nil =>
      refine inArray_read (d := 0) hdepth fun b' _ _ => ⟨']' :: rest, ?_, rfl⟩
      rfl
    | cons a as =>
      refine inArray_read (d := depthItems ((a :: as).map f)) hdepth fun b' hdepth' hlength' =>
        ⟨']' :: rest, ?_, rfl⟩
      refine elements_read (a :: as) _ true h hdepth' ?_ le_rfl
      rw [hlength']
      exact Nat.lt_succ_of_le (Nat.le_of_succ_le hlength)

protected theorem pair {a : α} {b : β} (h : Reads r v a) (h' : Reads s w b) :
    Reads (Reader.pair r s) (.array [v, w]) (a, b) where
  starts := ⟨_, starts_array _⟩
  run b level blanks rest hb hrest hdepth hlength := by
    unfold Reader.pair
    rw [bind_lift ((starts_array _).peekSome hb level rest), if_pos rfl]
    refine inArray_read (d := depthItems [v, w]) hdepth fun b' hdepth' hlength' =>
      ⟨lineOnto level (']' :: rest), ?_, endArray_line⟩
    have htext : (prettyItems (level + 1) true [v, w] (lineOnto level (']' :: rest))).length
        ≤ b'.length := hlength' ▸ Nat.le_of_succ_le hlength
    have hv :=
      h.element (level + 1) level true [w] (']' :: rest) (le_trans (le_max_left _ _) hdepth')
      htext
    have hw := h'.element (level + 1) level false [] (']' :: rest) (b := b')
      (le_trans (le_max_left _ _) (le_trans (le_max_right _ _) hdepth'))
      ((length_items_lt _ _ _ _ _).le.trans htext)
    rw [bind_read hv]
    change (Reader.element false s >>= _) b' _ = _
    rw [bind_read hw]
    rfl

end Reads

/-! ## Variants -/

theorem starts_object (fs : List (String × Json)) : (Json.object fs).Starts '\x7b' where
  notBlank := rfl
  notEnd := by decide
  notNull := by decide
  text _ _ := by
    cases fs
    · exact ⟨_, rfl⟩
    · exact ⟨_, rfl⟩

section Keys

variable {blanks rest : List Char}

theorem quoted_read (hb : Blank blanks) (k : String) :
    Reader.quoted (blanks ++ stringOnto k rest) = .ok (k, rest) := by
  change Reader.quoted (blanks ++ '\x22' :: (stringOnto k rest).tail) = _
  unfold Reader.quoted
  rw [bind_scanned (peekSome_blanks hb rfl), if_pos rfl, bind_scanned skip_cons]
  exact scanString_stringOnto k rest

theorem colon_read : Reader.colon (':' :: rest) = .ok ((), rest) := by
  unfold Reader.colon
  rw [bind_scanned (peekSome_cons rfl), if_pos rfl]
  rfl

end Keys

namespace Reads

variable {α : Type} {cases : List (String × Case α)} {k : String} {a : α}

theorem variant_unit (h : cases.lookup k = some (.unit a)) :
    Reads (Reader.variant cases) (.string k) a where
  starts := ⟨_, starts_string k⟩
  run b level blanks rest hb hrest hdepth hlength := by
    unfold Reader.variant
    rw [bind_lift ((starts_string k).peekSome hb level rest), if_pos rfl,
      bind_read ((Reads.string k).here hrest hdepth hlength), h]
    rfl

theorem variant_payload {r : Reader α} {v : Json} (h : cases.lookup k = some (.payload r))
    (hr : Reads r v a) : Reads (Reader.variant cases) (.object [(k, v)]) a where
  starts := ⟨_, starts_object _⟩
  run b level blanks rest hb hrest hdepth hlength := by
    have hv : v.depth + 1 ≤ b.depth :=
      le_trans (Nat.succ_le_succ (le_max_left _ _)) hdepth
    unfold Reader.variant
    rw [bind_lift ((starts_object _).peekSome hb level rest), if_neg (by decide), if_pos rfl]
    obtain ⟨b', hdepth', hlength', hnested⟩ := Reader.nested_succ _ hv
    have hshort := length_field_lt (level + 1) true k v [] (lineOnto level ('\x7d' :: rest))
    have hread := hr.run b' (level + 1) [' '] (lineOnto level ('\x7d' :: rest)) .space
      (.line level _) hdepth' (hlength' ▸ (hshort.le.trans (Nat.le_of_succ_le hlength)))
    rw [hnested]
    simp only [prettyOnto, prettyFields, if_true]
    rw [bind_lift skip_cons, lineOnto_eq, bind_lift (quoted_read (.line (level + 1)) k), h]
    change ((liftM Reader.colon : Reader Unit) >>= _) b' _ = _
    rw [bind_lift colon_read]
    change (r >>= _) b' ([' '] ++ _) = _
    rw [bind_read hread, lineOnto_eq, bind_lift (peekSome_blanks (.line level) rfl), if_pos rfl]
    rfl

end Reads

/-! ## Records -/

theorem Follows.fields (level outer : Nat) (fs : List (String × Json)) (rest : List Char) :
    Follows (prettyFields level false fs (lineOnto outer rest)) := by
  cases fs with
  | nil => exact .line outer rest
  | cons f fs => exact .comma _

/-- Reading the given fields leads from one state to another. -/
inductive Collects {σ : Type} (slots : List (Slot σ)) : List (String × Json) → σ → σ → Prop
  | nil (s : σ) : Collects slots [] s s
  | cons {k : String} {v : Json} {fs : List (String × Json)} {s t : σ} {slot : Slot σ} {f : σ → σ}
      (find : slots.find? (fun slot => slot.name == k) = some slot) (unset : slot.isSet s = false)
      (read : Reads slot.read v f) (tail : Collects slots fs (f s) t) :
      Collects slots ((k, v) :: fs) s t

namespace Collects

variable {σ τ : Type} {slots : List (Slot σ)} {slots' : List (Slot τ)}
  {fs gs : List (String × Json)} {s t u : σ}

theorem append (h : Collects slots fs s t) (h' : Collects slots gs t u) :
    Collects slots (fs ++ gs) s u := by
  induction h with
  | nil s => exact h'
  | cons find unset read _ ih => exact .cons find unset read (ih h')

theorem names (h : Collects slots fs s t) : ∀ k ∈ fs.map Prod.fst, k ∈ slots.map Slot.name := by
  induction h with
  | nil => nofun
  | cons find unset read _ ih =>
    intro k hk
    rcases List.mem_cons.1 hk with rfl | hk
    · have hname := List.find?_some find
      exact beq_iff_eq.1 hname ▸ List.mem_map_of_mem (List.mem_of_find?_eq_some find)
    · exact ih k hk

theorem fst (h : Collects slots fs s t) (x : τ) (more : List (Slot (σ × τ))) :
    Collects (slots.map (Slot.within Prod.fst fun f s => (f s.1, s.2)) ++ more) fs (s, x)
      (t, x) := by
  induction h with
  | nil s => exact .nil (s, x)
  | @cons k v fs s t slot f find unset read _ ih =>
    have hfind : List.find? (fun slot => slot.name == k)
        (slots.map (Slot.within Prod.fst fun f s => (f s.1, s.2)) ++ more) =
        some (slot.within Prod.fst fun f s => (f s.1, s.2)) := by
      rw [List.find?_append, List.find?_map]
      exact congrArg (fun o => (Option.map _ o).or _) find
    exact .cons hfind unset (read.map _) ih

theorem snd {x y : τ} (h : Collects slots' fs x y) (s : σ)
    (hnames : ∀ k ∈ fs.map Prod.fst, k ∉ slots.map Slot.name) :
    Collects (slots.map (Slot.within Prod.fst fun f s => (f s.1, s.2))
      ++ slots'.map (Slot.within Prod.snd fun f s => (s.1, f s.2))) fs (s, x) (s, y) := by
  induction h with
  | nil x => exact .nil (s, x)
  | @cons k v fs x y slot f find unset read _ ih =>
    have hnone : slots.find? (fun slot => slot.name == k) = none := by
      rw [List.find?_eq_none]
      intro slot hslot hk
      exact hnames k List.mem_cons_self (beq_iff_eq.1 hk ▸ List.mem_map_of_mem hslot)
    have hfind : List.find? (fun slot => slot.name == k)
        (slots.map (Slot.within Prod.fst fun f s => (f s.1, s.2))
          ++ slots'.map (Slot.within Prod.snd fun f s => (s.1, f s.2))) =
        some (slot.within Prod.snd fun f s => (s.1, f s.2)) := by
      rw [List.find?_append, List.find?_map, List.find?_map]
      exact congrArg₂ (fun o o' => (Option.map _ o).or (Option.map _ o')) hnone find
    exact .cons hfind unset (read.map _) (ih fun k hk => hnames k (List.mem_cons_of_mem _ hk))

end Collects

namespace Record

variable {α β : Type} {name : String} {r : Reader α} {v : Json} {a : α}

/-- The names of the fields. -/
def names (R : Record α) : List String := R.slots.map Slot.name

@[simp] theorem names_field (default : Option α) : (field name r default).names = [name] := rfl

@[simp] theorem names_map (f : α → β) (R : Record α) : (f <$> R).names = R.names := rfl

@[simp] theorem names_seq (F : Record (α → β)) (R : Record α) :
    (F <*> R).names = F.names ++ R.names := by
  change List.map _ (_ ++ _) = _
  rw [List.map_append, List.map_map, List.map_map]
  rfl

/-- The given fields of an object are those of the structure. -/
def Fits (R : Record α) (fs : List (String × Json)) (a : α) : Prop :=
  ∃ s, Collects R.slots fs R.start s ∧ R.finish s = some a

namespace Fits

theorem field (h : Reads r v a) (default : Option α) :
    (field name r default).Fits [(name, v)] a := by
  refine ⟨some a, .cons (List.find?_cons_of_pos (beq_self_eq_true name)) rfl (h.map _) (.nil _),
    rfl⟩

/-- A field that is left out has its default. -/
theorem default : (Record.field name r (some a)).Fits [] a := ⟨none, .nil none, rfl⟩

theorem map {R : Record α} {fs : List (String × Json)} (h : R.Fits fs a) (f : α → β) :
    (f <$> R).Fits fs (f a) := by
  obtain ⟨s, hs, ha⟩ := h
  exact ⟨s, hs, congrArg (Option.map f) ha⟩

theorem seq {F : Record (α → β)} {R : Record α} {fs gs : List (String × Json)} {f : α → β}
    (hF : F.Fits fs f) (hR : R.Fits gs a) (hnames : ∀ k ∈ R.names, k ∉ F.names) :
    (F <*> R).Fits (fs ++ gs) (f a) := by
  obtain ⟨s, hs, hf⟩ := hF
  obtain ⟨t, ht, ha⟩ := hR
  refine ⟨(s, t), (hs.fst R.start _).append (ht.snd s fun k hk => hnames k (ht.names k hk)), ?_⟩
  change (F.finish s >>= fun f => R.finish t >>= fun a => some (f a)) = _
  rw [hf, ha]
  rfl

end Fits

/-! ## Reading the fields of an object -/

section Fields

variable {R : Record α} {b : Bounds} {level outer : Nat} {rest : List Char}

theorem key_read (first : Bool) (k : String) (v : Json) (fs : List (String × Json)) :
    Reader.key first (prettyFields level first ((k, v) :: fs) rest) =
      .ok (some k, ':' :: ' ' :: v.prettyOnto level (prettyFields level false fs rest)) := by
  unfold Reader.key
  cases first with
  | true =>
    simp only [prettyFields, if_true]
    change (_ : Scanner (Option String))
      (('\n' :: List.replicate (2 * level) ' ') ++ '\x22' :: _) = _
    rw [bind_scanned (peekSome_blanks (.line level) rfl), if_neg (by decide)]
    exact bind_scanned (quoted_read .nil k)
  | false =>
    simp only [prettyFields, Bool.false_eq_true, if_false]
    rw [bind_scanned (peekSome_cons rfl), if_neg (by decide), if_pos rfl, bind_scanned skip_cons]
    exact bind_scanned (quoted_read (.line level) k)

theorem fromFields_end {s : R.State} (ha : R.finish s = some a) {blanks : List Char}
    (hb : Blank blanks) (n : Nat) (first : Bool) :
    R.fromFields (n + 1) first s b (blanks ++ '\x7d' :: rest) = .ok (a, '\x7d' :: rest) := by
  have hkey : Reader.key first (blanks ++ '\x7d' :: rest) = .ok (none, '\x7d' :: rest) := by
    unfold Reader.key
    rw [bind_scanned (peekSome_blanks hb rfl), if_pos rfl]
    rfl
  unfold fromFields
  rw [bind_lift hkey]
  change R.done s b _ = _
  unfold done
  rw [ha]
  rfl

theorem fromFields_read {fs : List (String × Json)} {s t : R.State} (h : Collects R.slots fs s t)
    (ha : R.finish t = some a) : ∀ (n : Nat) (first : Bool), depthFields fs ≤ b.depth →
    (prettyFields level first fs (lineOnto outer ('\x7d' :: rest))).length < n →
    n ≤ b.length + 1 →
    R.fromFields n first s b (prettyFields level first fs (lineOnto outer ('\x7d' :: rest))) =
      .ok (a, '\x7d' :: rest) := by
  induction h with
  | nil s =>
    rintro (_ | n) first hdepth hlength hn
    · omega
    exact fromFields_end ha (.line outer) n first
  | @cons k v fs s t slot f find unset read _ ih =>
    rintro (_ | n) first hdepth hlength hn
    · omega
    have hvalue := length_field_lt level first k v fs (lineOnto outer ('\x7d' :: rest))
    have hshort := length_fields_lt level first k v fs (lineOnto outer ('\x7d' :: rest))
    have hread := read.run b level [' '] _ .space (Follows.fields level outer fs ('\x7d' :: rest))
      (le_trans (le_max_left _ _) hdepth) (by omega)
    have hrest := ih ha n false (le_trans (le_max_right _ _) hdepth) (by omega) (by omega)
    unfold fromFields
    rw [bind_lift (key_read first k v fs)]
    simp only [find, unset, Bool.false_eq_true, if_false]
    rw [bind_lift colon_read]
    change (slot.read >>= _) b ([' '] ++ _) = _
    rw [bind_read hread]
    exact hrest

theorem Fits.fromFields {fs : List (String × Json)} (h : R.Fits fs a) (level : Nat)
    (rest : List Char) (hdepth : depthFields fs ≤ b.depth)
    (hlength : (prettyOnto level (.object fs) rest).length ≤ b.length) :
    ∃ cs, prettyOnto level (.object fs) rest = '\x7b' :: cs ∧
      R.fromFields (b.length + 1) true R.start b cs = .ok (a, '\x7d' :: rest) := by
  obtain ⟨s, hs, ha⟩ := h
  cases hs with
  | nil => exact ⟨_, rfl, fromFields_end ha .nil _ true⟩
  | cons find unset read tail =>
    refine ⟨_, rfl, fromFields_read (.cons find unset read tail) ha _ true hdepth ?_ le_rfl⟩
    exact Nat.lt_succ_of_le (Nat.le_of_succ_le hlength)

end Fields

end Record

namespace Reads

variable {α : Type} {R : Record α} {fs : List (String × Json)} {a : α}

protected theorem record (h : R.Fits fs a) : Reads R.read (.object fs) a where
  starts := ⟨_, starts_object fs⟩
  run b level blanks rest hb hrest hdepth hlength := by
    have hobject : depthFields fs + 1 ≤ b.depth := hdepth
    unfold Record.read
    rw [bind_lift ((starts_object fs).peekSome hb level rest), if_neg (by decide), if_pos rfl]
    obtain ⟨b', hdepth', hlength', hnested⟩ := Reader.nested_succ _ hobject
    have hfuel : ∀ cs, Reader.fuel b' cs = .ok (b'.length + 1, cs) := fun _ => rfl
    obtain ⟨cs, htext, hread⟩ := h.fromFields level rest hdepth' (hlength' ▸ hlength)
    rw [hnested, htext, bind_lift skip_cons, bind_read (hfuel cs), bind_read hread]
    rfl

theorem payload (h : R.Fits fs a) : Reads R.readPayload (.object fs) a where
  starts := ⟨_, starts_object fs⟩
  run b level blanks rest hb hrest hdepth hlength := by
    unfold Record.readPayload
    rw [bind_scanned ((starts_object fs).peekSome hb level rest)]
    simp only [Char.reduceEq, and_false, if_false]
    exact (Reads.record h).here hrest hdepth hlength

/-- A reader that goes by the depth that is left reads what is not deeper. -/
theorem within {r : Nat → Reader α} {v : Json} (h : ∀ n, v.depth < n → Reads (r n) v a) :
    Reads (fun b => r (b.depth + 1) b) v a where
  starts := (h (v.depth + 1) (Nat.lt_succ_self _)).starts
  run b level blanks rest hb hrest hdepth hlength :=
    (h (b.depth + 1) (Nat.lt_succ_of_le hdepth)).run b level blanks rest hb hrest hdepth hlength

theorem run_pretty {r : Reader α} {v : Json} (h : Reads r v a) {n : Nat} (hn : v.depth ≤ n) :
    r.run v.pretty n = .ok a := by
  have hread : r ⟨n, v.pretty.length, false⟩ v.pretty.toList = .ok (a, []) := by
    have hlength : v.pretty.length = (v.prettyOnto 0 []).length := String.length_ofList
    have htext : v.pretty.toList = v.prettyOnto 0 [] := String.toList_ofList
    rw [htext]
    exact h.here nofun hn hlength.ge
  unfold Reader.run Reader.runWithin
  rw [hread]
  rfl

end Reads

/-! ## The depth of parts -/

theorem depth_le_items {v : Json} : ∀ {vs : List Json}, v ∈ vs → v.depth ≤ depthItems vs
  | w :: vs, h => by
    rcases List.mem_cons.1 h with rfl | h
    · exact le_max_left _ _
    · exact le_trans (depth_le_items h) (le_max_right _ _)

end ProtocolProver.Json
