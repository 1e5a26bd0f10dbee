import Mathlib.Data.List.TakeWhile
import ProtocolProver.Json.Reader

/-!
# Words that are read back

A reader of JSON text finds the words that were written in front of a rest: a string with any
characters (`scanString_stringOnto`) and a number of at most 64 bits (`scanNumber_nat`). Blanks
before a word are skipped (`peekSome_blanks`).
-/

namespace ProtocolProver.Json

/-! ## One step after another -/

section Steps

variable {α β : Type} {cs rest : List Char} {a : α}

theorem bind_scanned {x : Scanner α} {f : α → Scanner β} (h : x cs = .ok (a, rest)) :
    (x >>= f) cs = f a rest := by
  change (x cs >>= fun p => f p.1 p.2) = _
  rw [h]
  rfl

theorem bind_read {b : Bounds} {x : Reader α} {f : α → Reader β} (h : x b cs = .ok (a, rest)) :
    (x >>= f) b cs = f a b rest :=
  bind_scanned (f := fun a => f a b) h

theorem bind_lift {b : Bounds} {x : Scanner α} {f : α → Reader β} (h : x cs = .ok (a, rest)) :
    ((liftM x : Reader α) >>= f) b cs = f a b rest :=
  bind_scanned (f := fun a => f a b) h

theorem get_scanned : (get : Scanner (List Char)) cs = .ok (cs, cs) := rfl

theorem map_read {b : Bounds} {x : Reader α} {f : α → β} (h : x b cs = .ok (a, rest)) :
    (f <$> x) b cs = .ok (f a, rest) := by
  change (x b cs >>= fun p => .ok (f p.1, p.2)) = _
  rw [h]
  rfl

end Steps

/-! ## Blanks -/

/-- Only blanks. -/
def Blank (cs : List Char) : Prop := ∀ c ∈ cs, isBlank c = true

theorem Blank.nil : Blank [] := nofun

theorem Blank.space : Blank [' '] := by
  intro c hc
  rw [List.mem_singleton.1 hc]
  rfl

theorem Blank.line (level : Nat) : Blank ('\n' :: List.replicate (2 * level) ' ') := by
  intro c hc
  rcases List.mem_cons.1 hc with rfl | hc
  · rfl
  · rw [List.eq_of_mem_replicate hc]
    rfl

theorem lineOnto_eq (level : Nat) (rest : List Char) :
    lineOnto level rest = ('\n' :: List.replicate (2 * level) ' ') ++ rest := rfl

section Blanks

variable {blanks rest : List Char} {c : Char}

theorem dropWhile_blanks (hb : Blank blanks) (hc : isBlank c = false) :
    (blanks ++ c :: rest).dropWhile isBlank = c :: rest := by
  rw [List.dropWhile_append_of_pos hb, List.dropWhile_cons_of_neg (by simp [hc])]

theorem peek_blanks (hb : Blank blanks) (hc : isBlank c = false) :
    peek (blanks ++ c :: rest) = .ok (some c, c :: rest) := by
  change Except.ok (((blanks ++ c :: rest).dropWhile isBlank).head?,
    (blanks ++ c :: rest).dropWhile isBlank) = _
  rw [dropWhile_blanks hb hc]
  rfl

theorem peekSome_blanks (hb : Blank blanks) (hc : isBlank c = false) :
    peekSome (blanks ++ c :: rest) = .ok (c, c :: rest) := by
  unfold peekSome
  exact bind_scanned (peek_blanks hb hc)

theorem peekSome_cons (hc : isBlank c = false) : peekSome (c :: rest) = .ok (c, c :: rest) := by
  rw [← List.nil_append (c :: rest), peekSome_blanks .nil hc]
  rfl

theorem skip_cons : skip (c :: rest) = .ok ((), rest) := rfl

theorem expect_append : ∀ (word : List Char), expect word (word ++ rest) = .ok ((), rest)
  | [] => rfl
  | c :: word => by
    change (if c = c then _ else _ : Scanner Unit) (c :: (word ++ rest)) = _
    rw [if_pos rfl]
    exact expect_append word

end Blanks

/-! ## Strings -/

theorem hexValue?_hexDigit : ∀ n < 16, hexValue? (hexDigit n) = some n := by decide

theorem hexValue_control {n : Nat} (h : n < 32) :
    hexValue '0' '0' (hexDigit (n / 16)) (hexDigit (n % 16)) = some n := by
  have hzero : hexValue? '0' = some 0 := rfl
  simp only [hexValue, hzero, hexValue?_hexDigit (n / 16) (by omega),
    hexValue?_hexDigit (n % 16) (by omega), bind, Option.bind, pure, Option.some.injEq]
  omega

theorem stringBody_escape (c : Char) (rest : List Char) :
    stringBody (escape c ++ rest) = consChar c (stringBody rest) := by
  unfold escape
  split_ifs with hquote hback hnewline hreturn htab hbackspace hfeed hcontrol
  iterate 7 subst_vars; rfl
  · have hsurrogate : isTrailingSurrogate c.toNat = false ∧ isLeadingSurrogate c.toNat = false := by
      constructor <;> simp [isTrailingSurrogate, isLeadingSurrogate] <;> omega
    simp only [List.cons_append, List.nil_append, stringBody, hexValue_control hcontrol,
      hsurrogate, Char.ofNat_toNat]
    rfl
  · rw [List.singleton_append, stringBody.eq_def]
    -- The patterns for an escape sequence all start with a backslash.
    split
    case h_1 heq => cases heq
    case h_6 heq =>
      obtain ⟨rfl, rfl⟩ := List.cons.inj heq
      rw [if_neg hquote, if_neg hcontrol]
    all_goals
      rename_i heq
      exact absurd (List.cons.inj heq).1 hback

theorem stringBody_foldr : ∀ (cs rest : List Char),
    stringBody (cs.foldr (fun c rest => escape c ++ rest) ('\x22' :: rest)) = .ok (cs, rest)
  | [], rest => rfl
  | c :: cs, rest => by
    rw [List.foldr_cons, stringBody_escape, stringBody_foldr cs rest]
    rfl

theorem scanString_stringOnto (s : String) (rest : List Char) :
    scanString (stringOnto s rest).tail = .ok (s, rest) := by
  change (stringBody _ >>= fun p => .ok (String.ofList p.1, p.2)) = _
  rw [stringOnto, List.tail_cons, stringBody_foldr]
  change Except.ok (String.ofList s.toList, rest) = _
  rw [String.ofList_toList]

/-! ## Numbers -/

/-- What may follow a value in a text with one entry to a line. -/
def Follows (rest : List Char) : Prop := ∀ c ∈ rest.head?, c = ',' ∨ c = '\n'

theorem Follows.comma (rest : List Char) : Follows (',' :: rest) := by
  intro c hc
  cases hc
  exact .inl rfl

theorem Follows.line (level : Nat) (rest : List Char) : Follows (lineOnto level rest) := by
  intro c hc
  cases hc
  exact .inr rfl

/-- The digits of a number that can be kept give the number. -/
theorem foldl_digit_toDigits : ∀ {n : Nat}, n ≤ maxExact →
    (Nat.toDigits 10 n).foldl Scientific.digit ⟨0, 0⟩ = ⟨n, 0⟩ := by
  intro n
  induction n using Nat.strong_induction_on with
  | _ n ih =>
    intro hn
    have hdigit : ∀ d < 10, (Nat.digitChar d).toNat - 48 = d := by decide
    rw [Nat.toDigits_eq_if (by omega)]
    split
    · rename_i hlt
      simp only [List.foldl_cons, List.foldl_nil, Scientific.digit, hdigit n hlt, Nat.zero_mul,
        Nat.zero_add, hn, and_self, if_true]
    · rename_i hge
      rw [List.foldl_append, ih (n / 10) (by omega) (by omega)]
      have hvalue : n / 10 * 10 + n % 10 = n := by omega
      simp only [List.foldl_cons, List.foldl_nil, Scientific.digit, hdigit (n % 10) (by omega),
        hvalue, hn, and_self, if_true]

theorem eq_zero_of_head_toDigits (n : Nat) (h : (Nat.toDigits 10 n).head? = some '0') : n = 0 := by
  induction n using Nat.strong_induction_on with
  | _ n ih =>
    have hdigit : ∀ d < 10, Nat.digitChar d = '0' → d = 0 := by decide
    rw [Nat.toDigits_eq_if (by omega)] at h
    split at h
    · rename_i hlt
      exact hdigit n hlt (Option.some.inj h)
    · rename_i hge
      rw [List.head?_append, Option.or_eq_left_of_isSome (by simp)] at h
      have := ih (n / 10) (by omega) h
      omega

section Numbers

variable {n : Nat} {rest : List Char}

theorem isDigit_of_mem_toString {c : Char} (hc : c ∈ (toString n).toList) : c.isDigit = true := by
  rw [Nat.toString_eq_ofList_toDigits, String.toList_ofList] at hc
  exact Nat.isDigit_of_mem_toDigits (by omega) (by omega) hc

theorem scanDigits_nat (hrest : Follows rest) :
    scanDigits ((toString n).toList ++ rest) = .ok ((toString n).toList, rest) := by
  have hhead : ∀ c ∈ rest.head?, c.isDigit = false := by
    intro c hc
    rcases hrest c hc with rfl | rfl <;> rfl
  have hdigits : ∀ c ∈ (toString n).toList, c.isDigit = true := fun c => isDigit_of_mem_toString
  unfold scanDigits
  rw [List.takeWhile_append_of_pos hdigits, List.dropWhile_append_of_pos hdigits]
  cases rest with
  | nil => simp
  | cons c rest => simp [hhead c rfl]

theorem toString_ne_zero_cons {c : Char} {cs : List Char} :
    (toString n).toList ≠ '0' :: c :: cs := by
  rw [Nat.toString_eq_ofList_toDigits, String.toList_ofList]
  intro h
  have hzero := eq_zero_of_head_toDigits n (by rw [h]; rfl)
  rw [hzero, Nat.toDigits_zero] at h
  cases h

theorem toString_ne_nil : (toString n).toList ≠ [] := by
  rw [Nat.toString_eq_ofList_toDigits, String.toList_ofList]
  exact Nat.toDigits_ne_nil

theorem foldl_digit_toString (hn : n ≤ maxExact) :
    (toString n).toList.foldl Scientific.digit ⟨0, 0⟩ = ⟨n, 0⟩ := by
  rw [Nat.toString_eq_ofList_toDigits, String.toList_ofList, foldl_digit_toDigits hn]

theorem scanUnsigned_nat (hn : n ≤ maxExact) (hrest : Follows rest) :
    scanUnsigned false ((toString n).toList ++ rest) = .ok (.nat n, rest) := by
  unfold scanUnsigned
  rw [bind_scanned (scanDigits_nat hrest), bind_scanned get_scanned]
  refine congrFun (g := (pure (Number.nat n) : Scanner Number)) ?_ rest
  split
  · exact absurd ‹_› toString_ne_nil
  · exact absurd ‹_› toString_ne_nil
  · exact absurd ‹_› toString_ne_zero_cons
  · rw [foldl_digit_toString hn]
    split
    iterate 3
      rcases hrest _ rfl with h | h <;> cases h
    rfl

theorem scanNumber_nat (hn : n ≤ maxExact) (hrest : Follows rest) :
    scanNumber ((toString n).toList ++ rest) = .ok (.nat n, rest) := by
  unfold scanNumber
  rw [bind_scanned get_scanned, ← scanUnsigned_nat hn hrest]
  refine congrFun ?_ ((toString n).toList ++ rest)
  split
  · rename_i heq
    obtain ⟨c, cs, hcs⟩ := List.exists_cons_of_ne_nil (toString_ne_nil (n := n))
    rw [hcs] at heq
    cases heq
    have hdigit := isDigit_of_mem_toString (hcs ▸ List.mem_cons_self)
    cases hdigit
  · rfl

end Numbers

end ProtocolProver.Json
