import ExprLang.Proofs.Lexeme
import ExprLang.Text.Escaped

set_option autoImplicit false

/-! # Texts that can be told apart

What is written for numbers, for locations and for escaped texts tells what was written. Escaped
texts are read off from the left, since no escape begins another one; the parts of a longer text
are told apart by a character that only one of them holds (`append_cons_inj_first`,
`append_cons_inj_last`). None of these texts holds more than printable characters of ASCII.
-/

namespace ExprLang

open CharClass

/-! ## Parts of a text -/

/-- A character outside a class is not in a text of that class. -/
theorem not_mem_of_forall {p : Char → Bool} {cs : List Char} (h : ∀ c ∈ cs, p c = true)
    {c : Char} (hc : p c = false) : c ∉ cs :=
  fun hmem => Bool.false_ne_true (hc.symm.trans (h c hmem))

theorem forall_bne_of_not_mem {c : Char} {cs : List Char} (h : c ∉ cs) :
    ∀ d ∈ cs, (d != c) = true := by
  intro d hd
  rw [bne_iff_ne]
  rintro rfl
  exact h hd

/-- A text is cut in one way at the first of its characters `c`. -/
theorem append_cons_inj_first {c : Char} {xs ys xs' ys' : List Char} (hx : c ∉ xs)
    (hx' : c ∉ xs') (h : xs ++ c :: ys = xs' ++ c :: ys') : xs = xs' ∧ ys = ys' := by
  have hstop : ∀ zs : List Char, StopsAt (· != c) (c :: zs) := fun _ => stopsAt_cons.mpr (by simp)
  have htake := takeWhile_append_of_stopsAt (forall_bne_of_not_mem hx) (hstop ys)
  rw [h, takeWhile_append_of_stopsAt (forall_bne_of_not_mem hx') (hstop ys')] at htake
  subst htake
  exact ⟨rfl, List.tail_eq_of_cons_eq (List.append_cancel_left h)⟩

/-- A text is cut in one way at the last of its characters `c`. -/
theorem append_cons_inj_last {c : Char} {xs ys xs' ys' : List Char} (hy : c ∉ ys)
    (hy' : c ∉ ys') (h : xs ++ c :: ys = xs' ++ c :: ys') : xs = xs' ∧ ys = ys' := by
  have hreverse : ys.reverse ++ c :: xs.reverse = ys'.reverse ++ c :: xs'.reverse := by
    simpa using congrArg List.reverse h
  obtain ⟨hys, hxs⟩ := append_cons_inj_first (by simpa using hy) (by simpa using hy') hreverse
  exact ⟨List.reverse_inj.mp hxs, List.reverse_inj.mp hys⟩

/-! ## Digits -/

theorem isDigit_of_mem_toDigits {n : Nat} {c : Char} (h : c ∈ Nat.toDigits 10 n) :
    isDigit c = true := by
  have hdigit := Nat.isDigit_of_mem_toDigits (by decide) (by decide) h
  simp only [Char.isDigit, Bool.and_eq_true, decide_eq_true_eq] at hdigit
  simp only [isDigit, Bool.and_eq_true, decide_eq_true_eq]
  exact hdigit

/-- What is said of a digit of base 16 is checked on the table of these digits. -/
theorem isNameChar_digitChar {k : Nat} (h : k < 16) : isNameChar k.digitChar = true := by
  have htable : ∀ i : Fin 16, isNameChar (Nat.digitChar i) = true := by decide
  exact htable ⟨k, h⟩

theorem digitChar_inj {j k : Nat} (hj : j < 16) (hk : k < 16) (h : j.digitChar = k.digitChar) :
    j = k := by
  have htable : ∀ i i' : Fin 16, Nat.digitChar i = Nat.digitChar i' → i = i' := by decide
  exact congrArg Fin.val (htable ⟨j, hj⟩ ⟨k, hk⟩ h)

theorem isNameChar_of_mem_toDigits {n : Nat} {c : Char} (h : c ∈ Nat.toDigits 16 n) :
    isNameChar c = true := by
  induction n using Nat.strongRecOn with
  | ind n ih =>
      rw [Nat.toDigits_eq_if (by decide)] at h
      split at h
      · rename_i hlt
        rw [List.mem_singleton.mp h]
        exact isNameChar_digitChar hlt
      · rename_i hle
        rcases List.mem_append.mp h with h | h
        · exact ih (n / 16) (by omega) h
        · rw [List.mem_singleton.mp h]
          exact isNameChar_digitChar (Nat.mod_lt n (by decide))

/-- The digits tell the number, in the bases up to 16. -/
theorem toDigits_inj {b m n : Nat} (hb : 1 < b) (hb' : b ≤ 16)
    (h : Nat.toDigits b m = Nat.toDigits b n) : m = n := by
  have hlast : ∀ k, k % b < 16 := by
    intro k
    have hlt : k % b < b := Nat.mod_lt k (by omega)
    omega
  -- one digit is not several digits
  have hsingle : ∀ {c d : Char} {k : Nat}, [c] ≠ Nat.toDigits b k ++ [d] := by
    intro c d k h
    have hlength := congrArg List.length h
    have hpos : 0 < (Nat.toDigits b k).length := Nat.length_toDigits_pos
    rw [List.length_append, List.length_singleton, List.length_singleton] at hlength
    omega
  induction m using Nat.strongRecOn generalizing n with
  | ind m ih =>
      rw [Nat.toDigits_eq_if hb, Nat.toDigits_eq_if (n := n) hb] at h
      split at h <;> split at h
      · exact digitChar_inj (by omega) (by omega) (List.singleton_inj.mp h)
      · exact absurd h hsingle
      · exact absurd h.symm hsingle
      · obtain ⟨hfront, hdigit⟩ := List.append_inj' h rfl
        have hshort : m / b < m := Nat.div_lt_self (by omega) hb
        have hquotient : m / b = n / b := ih (m / b) hshort hfront
        have hremainder : m % b = n % b :=
          digitChar_inj (hlast m) (hlast n) (List.singleton_inj.mp hdigit)
        rw [← Nat.div_add_mod m b, ← Nat.div_add_mod n b, hquotient, hremainder]

theorem toList_toString_nat (n : Nat) : (toString n).toList = Nat.toDigits 10 n := by
  rw [Nat.toString_eq_ofList_toDigits, String.toList_ofList]

theorem not_mem_toDigits {c : Char} (hc : isDigit c = false) (n : Nat) : c ∉ Nat.toDigits 10 n :=
  not_mem_of_forall (fun _ => isDigit_of_mem_toDigits) hc

/-- Integers are written in digits, behind a sign if they are negative. -/
theorem toList_toString_int (z : Int) :
    (toString z).toList =
      if 0 ≤ z then Nat.toDigits 10 z.natAbs else '-' :: Nat.toDigits 10 z.natAbs := by
  cases z with
  | ofNat n =>
      have hle : 0 ≤ Int.ofNat n := Int.natCast_nonneg n
      rw [if_pos hle]
      exact toList_toString_nat n
  | negSucc n =>
      rw [if_neg (Int.not_le.mpr (Int.negSucc_lt_zero n))]
      show ("-" ++ toString (n + 1)).toList = _
      rw [String.toList_append, toList_toString_nat]
      rfl

theorem toString_int_inj {y z : Int} (h : toString y = toString z) : y = z := by
  have hminus := not_mem_toDigits (c := '-') (by decide)
  have hchars := congrArg String.toList h
  rw [toList_toString_int, toList_toString_int] at hchars
  have habs : ∀ {m n : Nat}, Nat.toDigits 10 m = Nat.toDigits 10 n → m = n :=
    toDigits_inj (by decide) (by decide)
  split at hchars <;> split at hchars
  · have hsame := habs hchars
    omega
  · exact absurd (hchars ▸ List.mem_cons_self ..) (hminus _)
  · exact absurd (hchars ▸ List.mem_cons_self ..) (hminus _)
  · have hsame := habs (List.tail_eq_of_cons_eq hchars)
    omega

/-! ## Locations -/

namespace Location

theorem toList_text (l : Location) :
    l.text.toList = Nat.toDigits 10 l.line ++ ':' :: Nat.toDigits 10 l.column := by
  rw [text, String.toList_append, String.toList_append, toList_toString_nat, toList_toString_nat,
    List.append_assoc]
  rfl

/-- A location is written with digits and a colon. -/
theorem isDigit_of_mem_text {l : Location} {c : Char} (h : c ∈ l.text.toList) :
    isDigit c = true ∨ c = ':' := by
  rw [toList_text, List.mem_append, List.mem_cons] at h
  rcases h with h | rfl | h
  · exact .inl (isDigit_of_mem_toDigits h)
  · exact .inr rfl
  · exact .inl (isDigit_of_mem_toDigits h)

theorem text_inj {l m : Location} (h : l.text = m.text) : l = m := by
  have hcolon := not_mem_toDigits (c := ':') (by decide)
  have hparts := congrArg String.toList h
  rw [toList_text, toList_text] at hparts
  obtain ⟨hline, hcolumn⟩ := append_cons_inj_first (hcolon _) (hcolon _) hparts
  obtain ⟨line, column⟩ := l
  obtain ⟨line', column'⟩ := m
  rw [mk.injEq]
  exact ⟨toDigits_inj (by decide) (by decide) hline,
    toDigits_inj (by decide) (by decide) hcolumn⟩

end Location

/-! ## Escaped texts -/

namespace Text

/-- What is written behind a backslash for a character with a short escape. -/
theorem shortEscape_spec {c name : Char} (h : shortEscape c = some name) :
    isPrintable name = true ∧ name ≠ 'u' ∧ CharClass.unescape name = some c := by
  unfold shortEscape at h
  split at h <;> cases h <;> decide

theorem isPrintable_of_isNameChar {c : Char} (h : isNameChar c = true) : isPrintable c = true := by
  have hcode := toNat_of_isNameChar h
  simp only [isPrintable, Bool.and_eq_true, decide_eq_true_eq]
  omega

/-- A character is written with a short escape, as itself, or as its code point. -/
theorem escapeChar_cases (c : Char) :
    (∃ name, shortEscape c = some name ∧ escapeChar c = ['\\', name]) ∨
    (c ≠ '\\' ∧ isPrintable c = true ∧ escapeChar c = [c]) ∨
    escapeChar c = '\\' :: 'u' :: '\x7b' :: (Nat.toDigits 16 c.toNat ++ ['\x7d']) := by
  cases hshort : shortEscape c with
  | some name => exact .inl ⟨name, rfl, by rw [escapeChar, hshort]⟩
  | none =>
      right
      by_cases hprintable : isPrintable c = true
      · refine .inl ⟨?_, hprintable, ?_⟩
        · rintro rfl
          cases hshort
        · rw [escapeChar, hshort]
          exact if_pos hprintable
      · right
        rw [escapeChar, hshort]
        exact if_neg hprintable

/-- Escaped text is printable. -/
theorem isPrintable_of_mem_escapeChars {cs : List Char} {c : Char} (h : c ∈ escapeChars cs) :
    isPrintable c = true := by
  obtain ⟨d, -, hd⟩ := List.mem_flatMap.mp h
  rcases escapeChar_cases d with ⟨name, hname, hd'⟩ | ⟨-, hprintable, hd'⟩ | hd'
  · rw [hd', List.mem_cons, List.mem_singleton] at hd
    rcases hd with rfl | rfl
    · decide
    · exact (shortEscape_spec hname).1
  · rw [hd', List.mem_singleton] at hd
    rwa [hd]
  · rw [hd', List.mem_cons, List.mem_cons, List.mem_cons, List.mem_append,
      List.mem_singleton] at hd
    rcases hd with rfl | rfl | rfl | hd | rfl
    · decide
    · decide
    · decide
    · exact isPrintable_of_isNameChar (isNameChar_of_mem_toDigits hd)
    · decide

/-- No escape begins another one. -/
theorem escapeChar_append_inj {c d : Char} {xs ys : List Char}
    (h : escapeChar c ++ xs = escapeChar d ++ ys) : c = d ∧ xs = ys := by
  have hbrace : ∀ n, '\x7d' ∉ Nat.toDigits 16 n :=
    fun n => not_mem_of_forall (fun _ => isNameChar_of_mem_toDigits) (by decide)
  rcases escapeChar_cases c with ⟨name, hc, hc'⟩ | ⟨hc, -, hc'⟩ | hc' <;>
    rcases escapeChar_cases d with ⟨name', hd, hd'⟩ | ⟨hd, -, hd'⟩ | hd' <;>
    simp only [hc', hd', List.cons_append, List.nil_append, List.append_assoc,
      List.cons.injEq, true_and] at h
  · obtain ⟨rfl, hrest⟩ := h
    obtain ⟨-, -, hdecode⟩ := shortEscape_spec hc
    obtain ⟨-, -, hdecode'⟩ := shortEscape_spec hd
    exact ⟨Option.some.inj (hdecode.symm.trans hdecode'), hrest⟩
  · exact absurd h.1.symm hd
  · exact absurd h.1 (shortEscape_spec hc).2.1
  · exact absurd h.1 hc
  · exact h
  · exact absurd h.1 hc
  · exact absurd h.1.symm (shortEscape_spec hd).2.1
  · exact absurd h.1.symm hd
  · -- the code point goes on up to the closing brace
    obtain ⟨hdigits, hrest⟩ := append_cons_inj_first (hbrace _) (hbrace _) h
    exact ⟨Char.toNat_inj.mp (toDigits_inj (by decide) (by decide) hdigits), hrest⟩

theorem escapeChars_inj {cs ds : List Char} (h : escapeChars cs = escapeChars ds) : cs = ds := by
  have hnil : ∀ c cs, escapeChars (c :: cs) ≠ [] := by
    intro c cs hcs
    have hc := (List.append_eq_nil_iff.mp hcs).1
    rcases escapeChar_cases c with ⟨name, -, hc'⟩ | ⟨-, -, hc'⟩ | hc' <;> rw [hc'] at hc <;>
      cases hc
  induction cs generalizing ds with
  | nil =>
      cases ds with
      | nil => rfl
      | cons d ds => exact absurd h.symm (hnil d ds)
  | cons c cs ih =>
      cases ds with
      | nil => exact absurd h (hnil c cs)
      | cons d ds =>
          obtain ⟨rfl, hrest⟩ := escapeChar_append_inj h
          rw [ih hrest]

theorem escape_inj {s t : String} (h : escape s = escape t) : s = t := by
  rw [escape, escape, String.ofList_inj] at h
  exact String.toList_injective (escapeChars_inj h)

/-! ## Printable texts -/

/-- All characters of the text are printable. -/
def AllPrintable (s : String) : Prop := ∀ c ∈ s.toList, isPrintable c = true

instance (s : String) : Decidable (AllPrintable s) :=
  decidable_of_iff (s.toList.all isPrintable = true) List.all_eq_true

theorem AllPrintable.append {s t : String} (hs : AllPrintable s) (ht : AllPrintable t) :
    AllPrintable (s ++ t) := by
  unfold AllPrintable
  rw [String.toList_append, List.forall_mem_append]
  exact ⟨hs, ht⟩

theorem allPrintable_escape (s : String) : AllPrintable (escape s) := by
  intro c hc
  rw [escape, String.toList_ofList] at hc
  exact isPrintable_of_mem_escapeChars hc

theorem allPrintable_int (z : Int) : AllPrintable (toString z) := by
  have hdigits : ∀ n c, c ∈ Nat.toDigits 10 n → isPrintable c = true := fun n c hc =>
    isPrintable_of_isNameChar (isNameChar_of_isDigit (isDigit_of_mem_toDigits hc))
  unfold AllPrintable
  rw [toList_toString_int]
  split
  · exact hdigits _
  · exact List.forall_mem_cons.mpr ⟨by decide, hdigits _⟩

theorem allPrintable_location (l : Location) : AllPrintable l.text := by
  intro c hc
  rcases Location.isDigit_of_mem_text hc with hdigit | rfl
  · exact isPrintable_of_isNameChar (isNameChar_of_isDigit hdigit)
  · decide

end Text

end ExprLang
