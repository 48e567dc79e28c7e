import ExprLang.Proofs.Invocation
import ExprLang.Proofs.Rendering

set_option autoImplicit false

/-! # Tokens as text

The text of a token tells the token (`Token.text_inj`), whatever its value is: the name of the kind
goes up to the first comma, and the escaped value ends at the last apostrophe, since a location is
written without one. Neither cut looks at the value, so a value that looks like the end of a token
does no harm.

The text is printable, so it stays on one line, and a dump of tokens has a line for each token. A
dump tells its tokens (`Token.dump_inj`), and `dump_tells_tokens` says so of the texts that are
printed of two sources.
-/

namespace ExprLang

open Text (AllPrintable)

namespace Token

theorem Kind.name_inj {kind kind' : Kind} (h : kind.name = kind'.name) : kind = kind' := by
  cases kind <;> cases kind' <;> first | rfl | exact absurd h (by decide)

theorem Kind.comma_not_mem_name (kind : Kind) : ',' ∉ kind.name.toList := by
  cases kind <;> decide

/-- What stands behind the escaped value. -/
def textBehind (t : Token) : List Char :=
  [',', ' ', '('] ++ t.location.text.toList ++ [')', '\x7d']

theorem toList_text (t : Token) :
    t.text.toList = '\x7b' :: (t.kind.name.toList ++ ',' :: ([' ', '\''] ++
      (Text.escape t.value).toList ++ '\'' :: t.textBehind)) := by
  simp [text, textBehind, String.toList_append]

theorem apostrophe_not_mem_textBehind (t : Token) : '\'' ∉ t.textBehind := by
  intro hmem
  rw [textBehind, List.mem_append, List.mem_append] at hmem
  rcases hmem with (hmem | hmem) | hmem
  · revert hmem
    decide
  · have hdigit := Location.isDigit_of_mem_text hmem
    revert hdigit
    decide
  · revert hmem
    decide

/-- The text of a token tells the token. -/
theorem text_inj {t u : Token} (h : t.text = u.text) : t = u := by
  have hchars := congrArg String.toList h
  rw [toList_text, toList_text] at hchars
  -- the kind is in front of the first comma
  obtain ⟨hkind, hrest⟩ := append_cons_inj_first t.kind.comma_not_mem_name
    u.kind.comma_not_mem_name (List.tail_eq_of_cons_eq hchars)
  -- the value is in front of the last apostrophe
  obtain ⟨hvalue, hbehind⟩ := append_cons_inj_last t.apostrophe_not_mem_textBehind
    u.apostrophe_not_mem_textBehind hrest
  have hescaped := String.toList_injective (List.append_cancel_left hvalue)
  have hlocation := List.append_cancel_left (List.append_cancel_right hbehind)
  obtain ⟨kind, value, location⟩ := t
  obtain ⟨kind', value', location'⟩ := u
  rw [mk.injEq]
  exact ⟨Kind.name_inj (String.toList_injective hkind), Text.escape_inj hescaped,
    Location.text_inj (String.toList_injective hlocation)⟩

theorem allPrintable_text (t : Token) : AllPrintable t.text := by
  have hkind : AllPrintable t.kind.name := by
    cases t.kind <;> decide
  have hopening : AllPrintable "\x7b" := by decide
  have hvalue : AllPrintable ", '" := by decide
  have hlocation : AllPrintable "', (" := by decide
  exact (((((hopening.append hkind).append hvalue).append (Text.allPrintable_escape _)).append
    hlocation).append (Text.allPrintable_location _)).append (by decide)

theorem newline_not_mem_text (t : Token) : '\n' ∉ t.text.toList :=
  not_mem_of_forall t.allPrintable_text (by decide)

/-! ## Dumps -/

/-- The texts of tokens, a line for each. -/
def dump (ts : List Token) : String := String.join (ts.map fun t => t.text ++ "\n")

theorem toList_dump (ts : List Token) :
    (dump ts).toList = (ts.map (·.text.toList)).flatMap (· ++ ['\n']) := by
  rw [dump, String.toList_join, List.flatMap_map, List.flatMap_map]
  simp only [String.toList_append]
  rfl

/-- A dump falls into the texts of its tokens. -/
theorem splitOn_dump (ts : List Token) :
    (dump ts).toList.splitOn '\n' = ts.map (·.text.toList) ++ [[]] := by
  rw [toList_dump, splitOn_lines]
  rw [List.forall_mem_map]
  exact fun t _ => t.newline_not_mem_text

theorem count_dump (ts : List Token) : (dump ts).toList.count '\n' = ts.length := by
  rw [toList_dump]
  induction ts with
  | nil => rfl
  | cons t ts ih =>
      have ht : t.text.toList.count '\n' = 0 := List.count_eq_zero.mpr t.newline_not_mem_text
      rw [List.map_cons, List.flatMap_cons, List.count_append, List.count_append, ih, ht,
        List.count_singleton_self, List.length_cons]
      omega

theorem dump_inj {ts us : List Token} (h : dump ts = dump us) : ts = us := by
  have hlines := splitOn_dump ts
  rw [h, splitOn_dump] at hlines
  have htexts := List.append_cancel_right hlines
  exact ((List.map_injective_iff.mpr fun _ _ h => text_inj (String.toList_injective h)) htexts).symm

end Token

/-- What the command line prints of the tokens of a source is their dump. -/
theorem CommandLine.display_tokens {source : String} {ts : List Token}
    (h : tokenize source = .ok ts) : display true source = .ok (Token.dump ts) :=
  display_eq_ok_iff.mpr (.inl ⟨rfl, ts, h, rfl⟩)

/-- The text of a token tells the token, and it is printable, so it has no line feed in it. What is
printed of the tokens of two sources is the same only if the tokens are the same, and has as many
lines as there are tokens, each with its end. -/
theorem dump_tells_tokens {source source' : String} {ts ts' : List Token}
    (h : tokenize source = .ok ts) (h' : tokenize source' = .ok ts') :
    (∀ t u : Token, t.text = u.text → t = u) ∧
    (∀ t : Token, ∀ c ∈ t.text.toList, 0x20 ≤ c.toNat ∧ c.toNat ≤ 0x7E) ∧
    ∃ shown shown', CommandLine.display true source = .ok shown ∧
      CommandLine.display true source' = .ok shown' ∧ (shown = shown' ↔ ts = ts') ∧
      (∀ content, String.fromUTF8? content = some source →
        CommandLine.runOn true content = .success shown) ∧
      shown.toList.splitOn '\n' = ts.map (·.text.toList) ++ [[]] ∧
      shown.toList.count '\n' = ts.length := by
  have hshown := CommandLine.display_tokens h
  refine ⟨fun t u => Token.text_inj, fun t c hc => ?_, _, _, hshown,
    CommandLine.display_tokens h', ⟨Token.dump_inj, congrArg Token.dump⟩,
    fun content hcontent => ?_, Token.splitOn_dump ts, Token.count_dump ts⟩
  · have hprintable := t.allPrintable_text c hc
    simpa [Text.isPrintable] using hprintable
  · simp only [CommandLine.runOn, hcontent, hshown]

/-- A string that looks like the end of a token, and an empty one. -/
theorem dump_tells_tokens_brace :
    let t : Token := ⟨.string, "'\x7d", ⟨1, 1⟩⟩
    let u : Token := ⟨.string, "", ⟨1, 1⟩⟩
    tokenize "\"'\x7d\"" = .ok [t, .eof ⟨1, 5⟩] ∧ tokenize "\"\"" = .ok [u, .eof ⟨1, 3⟩] ∧
      t.text = "\x7bSTRING, '\\'\x7d', (1:1)\x7d" ∧
      ∃ shown shown', CommandLine.display true "\"'\x7d\"" = .ok shown ∧
        CommandLine.display true "\"\"" = .ok shown' ∧ shown ≠ shown' ∧
        shown.toList.count '\n' = 2 := by
  intro t u
  have ht : tokenize "\"'\x7d\"" = .ok [t, .eof ⟨1, 5⟩] := by with_unfolding_all rfl
  have hu : tokenize "\"\"" = .ok [u, .eof ⟨1, 3⟩] := by with_unfolding_all rfl
  obtain ⟨-, -, shown, shown', hshown, hshown', hsame, -, -, hlines⟩ := dump_tells_tokens ht hu
  refine ⟨ht, hu, by decide +kernel, shown, shown', hshown, hshown', ?_, hlines⟩
  rw [Ne, hsame]
  decide +kernel

end ExprLang
