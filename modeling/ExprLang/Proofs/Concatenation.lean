import ExprLang.Proofs.Separation

set_option autoImplicit false

/-! # Programs behind programs

A parser at the end of a statement is in the state in which it began: what it has taken puts
statements in front of the statements behind them, and has no other influence on these
(`Parser.exists_of_parses_statements`). A line feed does the same for a lexer. So a program, a line
feed and another text are parsed as the statements of the program in front of what the other text is
parsed as, some lines further down (`parse_append_line`).
-/

namespace ExprLang

open Lexer

/-! ## Some lines further down -/

namespace Location

/-- The place some lines further down. -/
def below (n : Nat) (l : Location) : Location := ⟨l.line + n, l.column⟩

theorem carries_below (n : Nat) (l : Location) : l.Carries (below n) := by
  intro text
  induction text generalizing l with
  | nil => rfl
  | cons c cs ih =>
      have hadvance : below n (l.advance c) = (below n l).advance c := by
        unfold advance
        split
        · exact congrArg (Location.mk · 1) (Nat.add_right_comm l.line 1 n)
        · rfl
      rw [after_cons, after_cons, ← hadvance, ih]

theorem line_after (l : Location) (text : List Char) :
    (l.after text).line = l.line + text.count '\n' := by
  induction text generalizing l with
  | nil => rfl
  | cons c cs ih =>
      rw [after_cons, ih]
      unfold advance
      split
      · rename_i hc
        show l.line + 1 + cs.count '\n' = l.line + (c :: cs).count '\n'
        rw [hc, List.count_cons_self]
        omega
      · rename_i hc
        rw [List.count_cons_of_ne hc]

/-- Behind a text and a line feed another line begins. -/
theorem start_after_line (text : List Char) :
    start.after (text ++ ['\n']) = below (text.count '\n' + 1) start := by
  have hline := line_after start text
  rw [after_append]
  show (⟨(start.after text).line + 1, 1⟩ : Location) = ⟨1 + (text.count '\n' + 1), 1⟩
  rw [hline]
  exact congrArg (Location.mk · 1) (Nat.add_assoc 1 (text.count '\n') 1)

end Location

/-! ## Statements behind statements -/

namespace Outcome

variable {α β : Type} {m n : Nat}

/-- Behind what a production yields it is the next step that decides. -/
theorem result_andThen_of_yields {x : Outcome α m}
    {f : α → (r : TokenStream) → r.size < m → Outcome β n} {a : α} {r : TokenStream}
    (h : x.Yields a r) : (x.andThen f).result = (f a r h.size_lt).result := by
  obtain ⟨hresult, rfl⟩ := h
  cases x with
  | ok b r' lt log =>
      cases hresult
      rw [andThen_ok, result_preceded]
      rfl
  | fail e r' log => cases hresult

theorem result_andThen_map (x : Outcome α m) (g : α → β) (log : α → Log)
    (h : ∀ r : TokenStream, r.size < m → r.size < n) :
    (x.andThen fun a r hr => (.ok (g a) r (h r hr) (log a) : Outcome β n)).result =
      x.result.map g := by
  cases x <;> rfl

end Outcome

namespace Parser

open Outcome

/-- A program is its statements, at its first token. -/
theorem result_program {s : TokenStream} {u : Token} (hu : s.head = .ok u) :
    (program s).result = (statements s).result.map fun ss => .block ss u.location := by
  rw [program, look, hu]
  exact result_andThen_map (statements s) _ _ fun _ hr => hr

/-- The statements of a stream are those of the program. -/
theorem result_statements (s : TokenStream) :
    (statements s).result = (program s).result.map Tree.children := by
  cases hhead : s.head with
  | ok u =>
      rw [result_program hhead]
      cases (statements s).result <;> rfl
  | error e =>
      rw [statements, program, look, look, hhead]
      rfl

/-- A statement stands in front of the statements behind it. -/
theorem result_statements_cons {t : Tree} {s r : TokenStream} {u : Token}
    (ht : Parses (.expression t) s (.token u r)) (hu : u.isPunctuation ";" = true) :
    (statements s).result = (statements r).result.map (t :: ·) := by
  obtain ⟨v, s, rfl, hv⟩ := ht.begins
  have hexpression : (expression (.token v s)).Yields t (.token u r) := ht.yields
  have hsemicolon : (expect .punctuation ";" (.token u r)).Yields u r :=
    yields_expect.mpr ⟨rfl, hu⟩
  rw [statements]
  show Outcome.result (if v.isEof then _ else _) = _
  rw [if_neg (Bool.eq_false_iff.mp hv.isEof), result_andThen_of_yields hexpression,
    result_andThen_of_yields hsemicolon]
  exact result_andThen_map (statements r) (t :: ·) _ _

/-- Statements take some tokens, and stand in front of the statements of whatever is behind. -/
theorem exists_of_parses_statements {ss : List Tree} {s r : TokenStream}
    (h : Parses (.statements ss) s r) :
    ∃ ts, s = r.prepend ts ∧ (ts = [] ↔ ss = []) ∧
      ∀ q, (statements (q.prepend ts)).result = (statements q).result.map (ss ++ ·) := by
  induction ss generalizing s with
  | nil =>
      cases h with
      | noStatements =>
          refine ⟨[], rfl, by simp, fun q => ?_⟩
          rw [TokenStream.prepend_nil]
          cases (statements q).result <;> rfl
  | cons t ss ih =>
      cases h with
      | @statements _ _ _ r _ u ht hu hss =>
          obtain ⟨ts, rfl, hframe⟩ := ht.exists_frame
          obtain ⟨us, rfl, -, hrest⟩ := ih hss
          refine ⟨ts ++ u :: us, ?_, ?_, fun q => ?_⟩
          · rw [TokenStream.prepend_append]
            rfl
          · simp
          · have hstatement := hframe (.token u (q.prepend us)) rfl
            rw [TokenStream.prepend_append, TokenStream.prepend_cons,
              result_statements_cons hstatement hu, hrest]
            cases (statements q).result <;> rfl

/-- A program whose tokens put statements in front has these and the statements of the program
behind them, and is at its own first token. -/
theorem result_program_cons {ss : List Tree} {u : Token} {us : List Token} {q : TokenStream}
    (h : (statements (q.prepend (u :: us))).result = (statements q).result.map (ss ++ ·)) :
    (program (q.prepend (u :: us))).result =
      (program q).result.map fun t => .block (ss ++ t.children) u.location :=
  calc (program (q.prepend (u :: us))).result
      = (statements (q.prepend (u :: us))).result.map fun ss => .block ss u.location :=
        result_program rfl
    _ = (((program q).result.map Tree.children).map (ss ++ ·)).map
          fun ss => .block ss u.location := by
        rw [h, result_statements]
    _ = (program q).result.map fun t => .block (ss ++ t.children) u.location := by
        cases (program q).result <;> rfl

end Parser

/-! ## Sources -/

/-- If a source is a program, then behind it and a line feed another source offers what it offers by
itself, some lines further down. -/
theorem exists_stream_append_line {source : String} {t : Tree} (h : parse source = .ok t)
    (more : String) :
    ∃ ts m, TokenStream.ofText source = (TokenStream.ending m).prepend ts ∧
      Parser.Parses (.program t) (.ofText source) (.ending m) ∧
      TokenStream.ofText (source ++ "\n" ++ more) =
        ((TokenStream.ofText more).relocate
          (Location.below (source.toList.count '\n' + 1))).prepend ts := by
  obtain ⟨r, hparses⟩ := parse_eq_ok_iff.mp h
  obtain ⟨m, rfl⟩ := hparses.exists_ending
  obtain ⟨ts, hstream, -⟩ := hparses.derives
  have hchars : (source ++ "\n" ++ more).toList = source.toList ++ '\n' :: more.toList := by
    rw [String.toList_append, String.toList_append, List.append_assoc]
    rfl
  have hbehind := TokenStream.ofCursor_append_line hstream more.toList
  rw [Location.start_after_line] at hbehind
  have hmoved : TokenStream.ofCursor ⟨more.toList, .below _ .start⟩ = _ :=
    TokenStream.ofCursor_relocate
      (Location.carries_below (source.toList.count '\n' + 1) (Cursor.ofText more).location)
  refine ⟨ts, m, hstream, hparses, ?_⟩
  rw [TokenStream.ofText, Cursor.ofText, hchars, hbehind, hmoved]
  rfl

/-- A program, a line feed and another source are parsed together as they are parsed alone: the
statements of the other source come behind those of the program, as many lines further down as the
program takes, and an error of the other source is the same error there. The whole is where the
program is, unless the program is empty. -/
theorem parse_append_line {source : String} {ss : List Tree} {l : Location}
    (h : parse source = .ok (.block ss l)) (more : String) :
    (∀ ss' l', parse more = .ok (.block ss' l') →
      parse (source ++ "\n" ++ more) = .ok (.block
        (ss ++ ss'.map (Tree.relocate (.below (source.toList.count '\n' + 1))))
        (if ss.isEmpty then .below (source.toList.count '\n' + 1) l' else l))) ∧
    ∀ e, parse more = .error e → parse (source ++ "\n" ++ more) =
      .error (e.relocate (.below (source.toList.count '\n' + 1))) := by
  obtain ⟨ts, m, hsource, hparses, hstream⟩ := exists_stream_append_line h more
  generalize Location.below (source.toList.count '\n' + 1) = f at hstream ⊢
  have hmore : (Parser.program ((TokenStream.ofText more).relocate f)).result =
      relocateResult f (parse more) :=
    Parser.result_program_relocate _
  cases hparses with
  | @program _ _ _ u hu hstatements =>
      obtain ⟨us, hus, hempty, hresult⟩ := Parser.exists_of_parses_statements hstatements
      obtain rfl : ts = us := TokenStream.prepend_cancel (hsource.symm.trans hus)
      cases ss with
      | nil =>
          obtain rfl : ts = [] := hempty.mpr rfl
          have hwhole : parse (source ++ "\n" ++ more) = relocateResult f (parse more) := by
            rw [parse, hstream, TokenStream.prepend_nil, hmore]
          refine ⟨fun ss' l' h' => ?_, fun e h' => ?_⟩
          · rw [hwhole, h', ← Tree.relocateAll_eq_map]
            rfl
          · rw [hwhole, h']
            rfl
      | cons t ss =>
          obtain ⟨v, vs, rfl⟩ := List.exists_cons_of_ne_nil (mt hempty.mp (List.cons_ne_nil t ss))
          obtain rfl : v = u := by
            rw [hus] at hu
            exact Except.ok.inj hu
          have hwhole : parse (source ++ "\n" ++ more) = (relocateResult f (parse more)).map
              fun t' => .block (t :: ss ++ t'.children) v.location := by
            rw [parse, hstream, Parser.result_program_cons (hresult _), hmore]
          refine ⟨fun ss' l' h' => ?_, fun e h' => ?_⟩
          · rw [hwhole, h', ← Tree.relocateAll_eq_map]
            rfl
          · rw [hwhole, h']
            rfl

/-- The comment ends with its line, so the statement behind it counts, and the bracket is refused in
the second line. -/
theorem parse_append_line_comment :
    let bracket : Token := ⟨.punctuation, ")", ⟨2, 1⟩⟩
    parse "x;#" = .ok (.block [.reference "x" ⟨1, 1⟩] ⟨1, 1⟩) ∧
      parse "y;" = .ok (.block [.reference "y" ⟨1, 1⟩] ⟨1, 1⟩) ∧
      parse ("x;#" ++ "\n" ++ "y;") =
        .ok (.block [.reference "x" ⟨1, 1⟩, .reference "y" ⟨2, 1⟩] ⟨1, 1⟩) ∧
      parse ("x;#" ++ "\n" ++ ")") = .error (.syntactic (.unexpectedToken bracket)) := by
  intro bracket
  have hx : parse "x;#" = .ok (.block [.reference "x" ⟨1, 1⟩] ⟨1, 1⟩) := by
    with_unfolding_all rfl
  have hy : parse "y;" = .ok (.block [.reference "y" ⟨1, 1⟩] ⟨1, 1⟩) := by
    with_unfolding_all rfl
  have hbracket : parse ")" =
      .error (.syntactic (.unexpectedToken ⟨.punctuation, ")", ⟨1, 1⟩⟩)) := by
    with_unfolding_all rfl
  exact ⟨hx, hy, (parse_append_line hx "y;").1 _ _ hy, (parse_append_line hx ")").2 _ hbracket⟩

end ExprLang
