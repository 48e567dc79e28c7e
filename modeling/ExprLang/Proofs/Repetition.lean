import ExprLang.Proofs.Agreement

set_option autoImplicit false

/-! # Calls after calls

A parser that has failed can be called again, and goes on with what the failed call has left. Each
call begins at a cursor, and `Cursor.Recovers c e c'` says how a call that begins at `c` fails with
`e`, and at which cursor `c'` the next one begins: before the token at fault or behind it, or where
the failure to read a token has left the lexer.

A call that fails moves the cursor, unless the very next character begins no token. So the calls
on a text come to its end or to such a character, and there they stay (`repeated_calls_settle`).
-/

namespace ExprLang

open Lexer

/-! ## Cursors move forward -/

namespace Cursor

variable {c d e : Cursor}

/-- The second cursor is further on in the same text, or where the first one is. -/
def Reaches (c d : Cursor) : Prop :=
  ∃ text, c.rest = text ++ d.rest ∧ d.location = c.location.after text

theorem Reaches.refl (c : Cursor) : c.Reaches c := ⟨[], rfl, rfl⟩

theorem Reaches.trans (h : c.Reaches d) (h' : d.Reaches e) : c.Reaches e := by
  obtain ⟨xs, hrest, hlocation⟩ := h
  obtain ⟨ys, hrest', hlocation'⟩ := h'
  refine ⟨xs ++ ys, ?_, ?_⟩
  · rw [hrest, hrest', List.append_assoc]
  · rw [hlocation', hlocation, Location.after_append]

/-- The text ends in one place, wherever one looks from. -/
theorem Reaches.after_rest (h : c.Reaches d) :
    d.location.after d.rest = c.location.after c.rest := by
  obtain ⟨text, hrest, hlocation⟩ := h
  rw [hrest, hlocation, Location.after_append]

/-- What is read of something that is no token ends further on. -/
theorem reaches_of_isFault {rest : List Char} {j : Location} {error : LexError} {behind : Cursor}
    (h : IsFault rest j error behind) : Reaches ⟨rest, j⟩ behind := by
  cases h with
  | unexpectedCharacter => exact .refl _
  | unterminatedLiteral => exact ⟨rest, (List.append_nil rest).symm, rfl⟩
  | @unknownEscape _ quote x _ text behind _ _ _ hrest =>
      refine ⟨quote :: (text ++ ['\\', x]), ?_, rfl⟩
      rw [hrest]
      simp

/-- Taking a token, or failing to, leaves a cursor further on. -/
theorem reaches_take (c : Cursor) : c.Reaches (take c.read).2 := by
  obtain ⟨xs, l⟩ := c
  obtain ⟨gap, rest, rfl, hgap⟩ := exists_longestGap xs
  have hread : read ⟨gap ++ rest, l⟩ = readHere ⟨rest, l.after gap⟩ := by
    rw [read, skipGap_of_isLongestGap hgap]
  rw [hread]
  have hskip : Reaches ⟨gap ++ rest, l⟩ ⟨rest, l.after gap⟩ := ⟨gap, rfl, rfl⟩
  refine hskip.trans ?_
  generalize l.after gap = j
  cases hhere : readHere ⟨rest, j⟩ with
  | token t behind =>
      obtain ⟨-, -, text, -, hrest, -, hlocation⟩ := readHere_eq_token_iff.mp hhere
      exact ⟨text, hrest, hlocation⟩
  | ending last =>
      obtain ⟨-, rfl⟩ := eq_of_readHere_ending hhere
      exact .refl _
  | fault error behind =>
      exact reaches_of_isFault (take_readHere_eq_error_iff.mp (by rw [hhere]; rfl))
  | stuck x before =>
      exact reaches_of_isFault (take_readHere_eq_error_iff.mp (by rw [hhere]; rfl))

theorem reaches_of_read_token {t : Token} (h : c.read = .token t d) : c.Reaches d := by
  have htake := c.reaches_take
  rwa [h] at htake

end Cursor

/-- Taking a token is reading it. -/
theorem Lexer.take_of_next {c d : Cursor} {x : Except LexError Token}
    (h : (ofCursor c).next = (x, ofCursor d)) : take c.read = (x, d) := by
  rw [next_of_ahead_eq_none rfl] at h
  obtain ⟨hfound, hleft⟩ := Prod.mk.inj h
  exact Prod.ext hfound (congrArg Lexer.cursor hleft)

theorem Lexer.reaches_of_next {c d : Cursor} {x : Except LexError Token}
    (h : (ofCursor c).next = (x, ofCursor d)) : c.Reaches d := by
  have htake := c.reaches_take
  rwa [take_of_next h] at htake

/-- What cannot be read is read in part, unless no token begins with its first character. -/
theorem Lexer.length_of_next_error {c d : Cursor} {e : LexError}
    (h : (ofCursor c).next = (.error e, ofCursor d)) :
    d.rest.length < c.rest.length ∨ ∃ x l, e = .unexpectedCharacter x l := by
  have htake := take_of_next h
  cases hread : c.read with
  | token t behind => rw [hread] at htake; cases htake
  | ending last => rw [hread] at htake; cases htake
  | fault error behind =>
      rw [hread] at htake
      cases htake
      exact .inl (Cursor.length_of_read_fault hread)
  | stuck x before =>
      rw [hread] at htake
      cases htake
      exact .inr ⟨x, _, rfl⟩

/-- A character that begins no token stays ahead. -/
theorem Lexer.ofCursor_of_next_unexpectedCharacter {c d : Cursor} {x : Char} {l : Location}
    (h : (ofCursor c).next = (.error (.unexpectedCharacter x l), ofCursor d)) :
    TokenStream.ofCursor d = .stuck x l := by
  have htake := take_of_next h
  rw [Cursor.read] at htake
  generalize hskip : c.skipGap = m at htake
  obtain ⟨rest, j⟩ := m
  cases Cursor.take_readHere_eq_error_iff.mp htake with
  | @unexpectedCharacter _ xs hrest hx =>
      subst hrest
      have hread : c.read = .stuck x ⟨x :: xs, l⟩ := by
        rw [Cursor.read, hskip, Cursor.readHere_of_beginsLexeme_eq_false hx]
      exact TokenStream.ofCursor_of_stuck (Cursor.read_of_read_stuck hread)

/-- The end of a stream is where the text ends. -/
theorem TokenStream.location_of_ending {c : Cursor} {l : Location}
    (h : TokenStream.ofCursor c = .ending l) : l = c.location.after c.rest := by
  obtain ⟨last, hread, rfl⟩ := exists_of_ofCursor_eq_ending h
  exact (Cursor.isLongestGap_of_read_ending hread).2

namespace Lexer

/-- Tokens that are delivered are taken off the text, each with one character at least. -/
theorem Delivers.reaches {c d : Cursor} {ts : List Token}
    (h : (ofCursor c).Delivers ts (ofCursor d)) :
    c.Reaches d ∧ d.rest.length + ts.length ≤ c.rest.length := by
  generalize hm : ofCursor c = m, hm' : ofCursor d = m' at h
  induction h generalizing c with
  | nil =>
      obtain rfl : c = d := congrArg Lexer.cursor (hm.trans hm'.symm)
      exact ⟨.refl c, Nat.le_refl _⟩
  | cons hnext ht _ ih =>
      subst hm
      obtain ⟨behind, hread, rfl⟩ := exists_of_next_token hnext ht
      obtain ⟨hreaches, hlength⟩ := ih rfl hm'
      have hshort := Cursor.length_of_read_token hread
      refine ⟨(Cursor.reaches_of_read_token hread).trans hreaches, ?_⟩
      rw [List.length_cons]
      omega

end Lexer

/-! ## How a call fails -/

/-- A call that begins at `c` can fail with the error and leave the last cursor. It has taken the
tokens in front of a cursor `d`; there it is refused the next token, or there is none. -/
inductive Cursor.Recovers (c : Cursor) : ParseError → Cursor → Prop where
  /-- A token that is not the expected one is left for the next call. -/
  | expected {ts : List Token} {d : Cursor} {found : Token} {kind : Token.Kind} {value : String} :
      (ofCursor c).Delivers ts (ofCursor d) → ts ≠ [] → (ofCursor d).next.1 = .ok found →
      Recovers c (.syntactic (.expectedToken found kind value)) d
  /-- A token that is no operand is taken. At the end of the text that changes nothing. -/
  | noOperand {ts : List Token} {d d' : Cursor} {found : Token} {e : SyntaxError} :
      (ofCursor c).Delivers ts (ofCursor d) → (ofCursor d).next = (.ok found, ofCursor d') →
      (ts = [] → found.isEof = false) →
      (found.isEof = true → (ofCursor d').next = (.ok found, ofCursor d')) →
      e = .unexpectedToken found ∨ (∃ reason, e = .invalidLiteral found reason) →
      Recovers c (.syntactic e) d'
  /-- A failure to read a token leaves the lexer as any call of it does that fails there. -/
  | lexical {ts : List Token} {d d' : Cursor} {e : LexError} :
      (ofCursor c).Delivers ts (ofCursor d) → (ofCursor d).next = (.error e, ofCursor d') →
      (ts = [] → d'.rest.length < c.rest.length ∨ ∃ x l, e = .unexpectedCharacter x l) →
      Recovers c (.lexical e) d'

/-- A call that fails takes something off the text, or stands before a character that begins no
token. -/
theorem Cursor.Recovers.length_lt {c c' : Cursor} {e : ParseError} (h : c.Recovers e c') :
    c'.rest.length < c.rest.length ∨ ∃ x l, e = .lexical (.unexpectedCharacter x l) := by
  cases h with
  | expected hdelivers hne _ =>
      obtain ⟨-, hlength⟩ := hdelivers.reaches
      have hpos := List.length_pos_iff.mpr hne
      exact .inl (by omega)
  | @noOperand ts d d' found _ hdelivers hnext hfirst _ _ =>
      obtain ⟨-, hlength⟩ := hdelivers.reaches
      cases heof : found.isEof with
      | false =>
          obtain ⟨behind, hread, hbehind⟩ := exists_of_next_token hnext heof
          cases hbehind
          have hshort := Cursor.length_of_read_token hread
          exact .inl (by omega)
      | true =>
          have hne : ts ≠ [] := by
            intro hnil
            rw [hfirst hnil] at heof
            cases heof
          have hpos := List.length_pos_iff.mpr hne
          obtain ⟨m, -, hend⟩ := exists_of_next_eof (sound_ofCursor d) hnext heof
          cases hend
          exact .inl (by simp only [List.length_nil]; omega)
  | @lexical ts d d' e hdelivers hnext hfirst =>
      obtain ⟨-, hlength⟩ := hdelivers.reaches
      obtain hlt | ⟨x, l, rfl⟩ := length_of_next_error hnext
      · exact .inl (by omega)
      · exact .inr ⟨x, l, rfl⟩

/-- A call that fails goes on in the text. -/
theorem Cursor.Recovers.reaches {c c' : Cursor} {e : ParseError} (h : c.Recovers e c') :
    c.Reaches c' := by
  cases h with
  | expected hdelivers _ _ => exact hdelivers.reaches.1
  | noOperand hdelivers hnext _ _ _ => exact hdelivers.reaches.1.trans (reaches_of_next hnext)
  | lexical hdelivers hnext _ => exact hdelivers.reaches.1.trans (reaches_of_next hnext)

/-- A character that begins no token is left for the next call. -/
theorem Cursor.Recovers.ofCursor_eq_stuck {c c' : Cursor} {x : Char} {l : Location}
    (h : c.Recovers (.lexical (.unexpectedCharacter x l)) c') :
    TokenStream.ofCursor c' = .stuck x l := by
  cases h with
  | lexical _ hnext _ => exact ofCursor_of_next_unexpectedCharacter hnext

namespace Run

variable {d d' : Demand} {g : Goal} {gs ks plan : Agenda} {s : TokenStream} {u : Token}

/-- If no token is taken on the way to a demand, the plans are made by one token. -/
theorem of_plan_nil (h : Run (g :: gs) [] (.demand d :: ks) s) (hu : s.head = .ok u)
    (hplan : g.plan u = some plan) : Run (plan ++ gs) [] (.demand d :: ks) s := by
  cases h with
  | done => cases hplan
  | plan hu' hplan' hrun =>
      obtain rfl := Except.ok.inj (hu.symm.trans hu')
      obtain rfl := Option.some.inj (hplan.symm.trans hplan')
      exact hrun

/-- A demand in front stays in front until a token is taken. -/
theorem demand_of_nil (h : Run (.demand d' :: gs) [] (.demand d :: ks) s) : d = d' := by
  cases h with
  | done => rfl
  | plan _ hplan _ => cases hplan

/-- The first token of a program is refused only if it is no operand, and never at the end. -/
theorem eq_operand_of_nil {e : SyntaxError} (h : Run [.statements] [] (.demand d :: ks) s)
    (hu : s.head = .ok u) (hrefusal : d.refusal u = some e) : d = .operand ∧ u.isEof = false := by
  -- any other demand for the first token was planned because that token meets it
  have hmet : ∀ kind value gs, u.is kind value = true →
      ¬ Run (.demand (.exactly kind value) :: gs) [] (.demand d :: ks) s := by
    intro kind value gs hvalue hrun
    rw [hrun.demand_of_nil, Demand.refusal, if_pos hvalue] at hrefusal
    cases hrefusal
  cases heof : u.isEof with
  | true =>
      cases h.of_plan_nil hu (if_pos heof)
  | false =>
      have hprimary := h.of_plan_nil hu (if_neg (Bool.eq_false_iff.mp heof))
      refine ⟨?_, rfl⟩
      by_cases hopen : u.isPunctuation "(" = true
      · exact absurd (hprimary.of_plan_nil hu (if_pos hopen)) (hmet _ _ _ hopen)
      by_cases hblock : u.isPunctuation Bracketing.block.opening = true
      · have hplan : Goal.primary.plan u = some Agenda.block := by
          rw [Goal.plan, if_neg hopen, if_pos hblock]
        exact absurd (hprimary.of_plan_nil hu hplan) (hmet _ _ _ hblock)
      by_cases hdef : u.isKeyword "def" = true
      · have hplan : Goal.primary.plan u = some Agenda.function := by
          rw [Goal.plan, if_neg hopen, if_neg hblock, if_pos hdef]
        exact absurd (hprimary.of_plan_nil hu hplan) (hmet _ _ _ hdef)
      by_cases hword : (u.isKeyword "const" || u.isKeyword "mut") = true
      · have hplan : Goal.primary.plan u = some [.definition] := by
          rw [Goal.plan, if_neg hopen, if_neg hblock, if_neg hdef, if_pos hword]
        have hdefinition := (hprimary.of_plan_nil hu hplan).of_plan_nil hu rfl
        refine absurd hdefinition (hmet _ _ _ ?_)
        show u.isKeyword _ = true
        cases hconst : u.isKeyword "const" with
        | true => exact hconst
        | false => simpa [hconst] using hword
      · have hplan : Goal.primary.plan u = some [.demand .operand] := by
          rw [Goal.plan, if_neg hopen, if_neg hblock, if_neg hdef, if_neg hword]
        exact (hprimary.of_plan_nil hu hplan).demand_of_nil

end Run

namespace Parser

/-- A call that fails leaves the rest of the text in one of the ways of `Cursor.Recovers`. -/
theorem exists_recovers {c : Cursor} {e : ParseError}
    (h : (program (.ofCursor c)).result = .error e) :
    ∃ c', (program (.ofCursor c)).rest = .ofCursor c' ∧ c.Recovers e c' := by
  obtain ⟨ts, g, ks, t, hstream, hrun, hfails⟩ := (leads_program (.ofCursor c)).exists_fails h
  obtain ⟨d, hd, rfl⟩ := exists_delivers hstream
  obtain ⟨hnext, d', hd', htail⟩ := next_ofCursor d
  generalize (program (.ofCursor c)).rest = r at hfails
  cases hfails with
  | @lexical _ _ e hhead =>
      rw [hhead] at hnext
      refine ⟨d', htail.symm, .lexical hd (Prod.ext hnext hd') fun hnil => ?_⟩
      obtain ⟨-, hlength⟩ := hd.reaches
      obtain hlt | hstuck := length_of_next_error (Prod.ext hnext hd')
      · exact .inl (by omega)
      · exact .inr hstuck
  | @refused demand _ u e hhead hrefusal =>
      rw [hhead] at hnext
      have hfirst : ts = [] → demand = .operand ∧ u.isEof = false := by
        rintro rfl
        exact hrun.eq_operand_of_nil hhead hrefusal
      rcases Demand.refusal_eq_some hrefusal with ⟨rfl, hoperand⟩ | ⟨hdemand, kind, value, rfl⟩
      · -- what should be an operand is taken although it is refused
        refine ⟨d', htail.symm, .noOperand hd (Prod.ext hnext hd') (fun hnil => (hfirst hnil).2)
          ?_ (Token.operand_eq_error hoperand)⟩
        intro heof
        obtain ⟨m, rfl, hlast⟩ := exists_of_next_eof (sound_ofCursor d) (Prod.ext hnext hd') heof
        obtain rfl : d' = ⟨[], m⟩ := congrArg Lexer.cursor hlast
        exact AtEnd.next ⟨rfl, .inl rfl⟩
      · have hleft : demand.left (TokenStream.ofCursor d) = .ofCursor d := by
          cases demand with
          | operand => exact absurd rfl hdemand
          | _ => rfl
        exact ⟨d, hleft, .expected hd (fun hnil => hdemand (hfirst hnil).1) hnext⟩

/-- A call that succeeds leaves the end of the text. -/
theorem rest_eq_ending {c : Cursor} {t : Tree} (h : (program (.ofCursor c)).result = .ok t) :
    (program (.ofCursor c)).rest = .ending (c.location.after c.rest) := by
  have hparses : Parses (.program t) (.ofCursor c) (program (.ofCursor c)).rest :=
    parses_program ⟨h, rfl⟩
  obtain ⟨l, hl⟩ := hparses.exists_ending
  obtain ⟨ts, hstream, -⟩ := hparses.derives
  obtain ⟨d, hd, hrest⟩ := exists_delivers hstream
  have hlocation := TokenStream.location_of_ending (hrest.trans hl)
  rw [hl, hlocation, hd.reaches.1.after_rest]

end Parser

/-! ## Calls in a row -/

/-- Nothing can be taken off the stream any more. -/
def TokenStream.IsSettled : TokenStream → Prop
  | .stuck _ _ => True
  | .ending _ => True
  | _ => False

namespace Parser

/-- What the calls before the `k`-th one leave of a stream; the first call is number zero. -/
def remaining (s : TokenStream) : Nat → TokenStream
  | 0 => s
  | k + 1 => (program (remaining s k)).rest

/-- What the `k`-th call answers. -/
def answer (s : TokenStream) (k : Nat) : Except ParseError Tree := (program (remaining s k)).result

theorem remaining_succ (s : TokenStream) (k : Nat) :
    remaining s (k + 1) = remaining (program s).rest k := by
  induction k with
  | zero => rfl
  | succ k ih => rw [remaining, ih, remaining]

/-- A session that reads programs makes these calls. -/
theorem run_replicate_program (s : TokenStream) (saved : Cursor) (n : Nat) :
    Session.run ⟨.programs s, saved⟩ (List.replicate n .program) =
      (List.range n).map fun k => .program (answer s k) := by
  induction n generalizing s with
  | zero => rfl
  | succ n ih =>
      have hlater : (fun k => Session.Reply.program (answer (program s).rest k)) =
          (fun k => .program (answer s k)) ∘ Nat.succ := by
        funext k
        show _ = Session.Reply.program (answer s (k + 1))
        rw [answer, answer, remaining_succ]
      have hstep : Session.step ⟨.programs s, saved⟩ .program =
          (.program (answer s 0), ⟨.programs (program s).rest, saved⟩) := rfl
      rw [List.replicate_succ, Session.run, hstep, ih, List.range_succ_eq_map, List.map_cons,
        List.map_map, hlater]

/-! ### Streams that are settled -/

theorem program_ending (l : Location) :
    (program (.ending l)).result = .ok (.block [] l) ∧ (program (.ending l)).rest = .ending l := by
  have hhead : (TokenStream.ending l).head = .ok (.eof l) := rfl
  exact (Parses.program hhead (.noStatements hhead rfl)).yields

theorem program_stuck (x : Char) (l : Location) :
    (program (.stuck x l)).result = .error (.lexical (.unexpectedCharacter x l)) ∧
      (program (.stuck x l)).rest = .stuck x l := by
  rw [program]
  exact ⟨rfl, rfl⟩

variable {s : TokenStream}

theorem rest_of_isSettled (h : s.IsSettled) : (program s).rest = s := by
  cases s with
  | token t rest => exact h.elim
  | fault e rest => exact h.elim
  | stuck x l => exact (program_stuck x l).2
  | ending l => exact (program_ending l).2

/-- Behind a stream that is settled every call answers the same. -/
theorem remaining_of_isSettled {k j : Nat} (h : (remaining s k).IsSettled) (hj : k ≤ j) :
    remaining s j = remaining s k := by
  induction hj with
  | refl => rfl
  | step _ ih => rw [remaining, ih, rest_of_isSettled h]

/-! ### Every call makes progress -/

/-- One call goes on in the text, and takes something off it or settles. -/
theorem exists_rest (c : Cursor) :
    ∃ c', (program (.ofCursor c)).rest = .ofCursor c' ∧ c.Reaches c' ∧
      (c'.rest.length < c.rest.length ∨ (TokenStream.ofCursor c').IsSettled) := by
  cases hresult : (program (.ofCursor c)).result with
  | ok t =>
      have hend := TokenStream.ofCursor_nil (c.location.after c.rest)
      refine ⟨⟨[], c.location.after c.rest⟩, ?_, ⟨c.rest, (List.append_nil _).symm, rfl⟩, .inr ?_⟩
      · rw [rest_eq_ending hresult, hend]
      · rw [hend]
        trivial
  | error e =>
      obtain ⟨c', hrest, hrecovers⟩ := exists_recovers hresult
      refine ⟨c', hrest, hrecovers.reaches, ?_⟩
      obtain hlt | ⟨x, l, rfl⟩ := hrecovers.length_lt
      · exact .inl hlt
      · refine .inr ?_
        rw [hrecovers.ofCursor_eq_stuck]
        trivial

/-- As long as the calls have not settled, each has taken a character. -/
theorem exists_remaining (c : Cursor) (k : Nat) :
    ∃ d, remaining (.ofCursor c) k = .ofCursor d ∧ c.Reaches d ∧
      (d.rest.length + k ≤ c.rest.length ∨ (TokenStream.ofCursor d).IsSettled) := by
  induction k with
  | zero => exact ⟨c, rfl, .refl c, .inl (Nat.le_refl _)⟩
  | succ k ih =>
      obtain ⟨d, hd, hreaches, hlength⟩ := ih
      obtain ⟨d', hd', hreaches', hlength'⟩ := exists_rest d
      refine ⟨d', by rw [remaining, hd, hd'], hreaches.trans hreaches', ?_⟩
      rcases hlength with hlength | hsettled
      · rcases hlength' with hlength' | hsettled'
        · exact .inl (by omega)
        · exact .inr hsettled'
      · rw [← hd', rest_of_isSettled hsettled]
        exact .inr hsettled

/-- There are no more calls with progress than characters. -/
theorem isSettled_remaining {c : Cursor} {k : Nat} (hk : c.rest.length ≤ k) :
    (remaining (.ofCursor c) k).IsSettled := by
  obtain ⟨d, hd, -, hlength | hsettled⟩ := exists_remaining c k
  · obtain ⟨rest, l⟩ := d
    have hempty : rest.length = 0 := by
      have hle : rest.length + k ≤ c.rest.length := hlength
      omega
    obtain rfl := List.length_eq_zero_iff.mp hempty
    rw [hd, TokenStream.ofCursor_nil]
    trivial
  · rwa [hd]

/-- A stream that is settled is at the end of the text, or before a character that begins no
token. -/
theorem answer_of_isSettled {c : Cursor} {k : Nat} (h : (remaining (.ofCursor c) k).IsSettled) :
    (∃ x l, answer (.ofCursor c) k = .error (.lexical (.unexpectedCharacter x l))) ∨
      answer (.ofCursor c) k = .ok (.block [] (c.location.after c.rest)) := by
  obtain ⟨d, hd, hreaches, -⟩ := exists_remaining c k
  rw [answer]
  cases hs : remaining (.ofCursor c) k with
  | token t rest => rw [hs] at h; exact h.elim
  | fault e rest => rw [hs] at h; exact h.elim
  | stuck x l => exact .inl ⟨x, l, (program_stuck x l).1⟩
  | ending l =>
      have hlocation := TokenStream.location_of_ending (hd.symm.trans hs)
      rw [← hreaches.after_rest, ← hlocation]
      exact .inr (program_ending l).1

/-! ### What the calls answer -/

variable {c : Cursor} {k j : Nat}

/-- A call that fails begins somewhere in the text, and the next one where it has recovered. -/
theorem recovers_of_answer {e : ParseError} (h : answer (.ofCursor c) k = .error e) :
    ∃ d d', c.Reaches d ∧ remaining (.ofCursor c) k = .ofCursor d ∧
      remaining (.ofCursor c) (k + 1) = .ofCursor d' ∧ d.Recovers e d' := by
  obtain ⟨d, hd, hreaches, -⟩ := exists_remaining c k
  rw [answer, hd] at h
  obtain ⟨d', hrest, hrecovers⟩ := exists_recovers h
  refine ⟨d, d', hreaches, hd, ?_, hrecovers⟩
  rw [remaining, hd, hrest]

/-- A character that begins no token fails all calls from then on. -/
theorem answer_of_unexpectedCharacter {x : Char} {l : Location}
    (h : answer (.ofCursor c) k = .error (.lexical (.unexpectedCharacter x l))) (hj : k ≤ j) :
    answer (.ofCursor c) j = .error (.lexical (.unexpectedCharacter x l)) := by
  obtain ⟨d, d', -, -, hrest, hrecovers⟩ := recovers_of_answer h
  rw [hrecovers.ofCursor_eq_stuck] at hrest
  have hsettled : (remaining (.ofCursor c) (k + 1)).IsSettled := by
    rw [hrest]
    trivial
  cases Nat.lt_or_eq_of_le hj with
  | inr heq => rw [← heq, h]
  | inl hlt =>
      rw [answer, remaining_of_isSettled hsettled hlt, hrest]
      exact (program_stuck x l).1

/-- Behind a program there is nothing, however often one asks. -/
theorem answer_of_success {t : Tree} (h : answer (.ofCursor c) k = .ok t) (hj : k < j) :
    answer (.ofCursor c) j = .ok (.block [] (c.location.after c.rest)) := by
  obtain ⟨d, hd, hreaches, -⟩ := exists_remaining c k
  rw [answer, hd] at h
  have hend : remaining (.ofCursor c) (k + 1) = .ending (c.location.after c.rest) := by
    rw [remaining, hd, rest_eq_ending h, hreaches.after_rest]
  have hsettled : (remaining (.ofCursor c) (k + 1)).IsSettled := by
    rw [hend]
    trivial
  rw [answer, remaining_of_isSettled hsettled hj, hend]
  exact (program_ending _).1

/-- From some call on, which is no later than there are characters, all calls answer the same. -/
theorem exists_last_answer (c : Cursor) :
    ∃ r, ((∃ x l, r = .error (.lexical (.unexpectedCharacter x l))) ∨
        r = .ok (.block [] (c.location.after c.rest))) ∧
      ∀ k, c.rest.length ≤ k → answer (.ofCursor c) k = r := by
  have hsettled : (remaining (.ofCursor c) c.rest.length).IsSettled :=
    isSettled_remaining (Nat.le_refl _)
  refine ⟨_, answer_of_isSettled hsettled, fun k hk => ?_⟩
  rw [answer, remaining_of_isSettled hsettled hk, answer]

/-- Programs are read off a source one after the other, and every call is told by what the calls
before it have left. A call that fails begins somewhere in the source and leaves the next one where
`Cursor.Recovers` says. Behind a character that begins no token every later call fails in the same
way, and behind a success every later call finds an empty program at the end of the source. There
are no more calls than characters before all later ones are of one of these two forms. -/
theorem repeated_calls_settle (source : String) :
    (∀ n, (Session.ofText source).run (.toPrograms :: List.replicate n .program) =
      .done :: (List.range n).map fun k => .program (answer (.ofText source) k)) ∧
    (∀ k e, answer (.ofText source) k = .error e →
      ∃ c c', (Cursor.ofText source).Reaches c ∧ remaining (.ofText source) k = .ofCursor c ∧
        remaining (.ofText source) (k + 1) = .ofCursor c' ∧ c.Recovers e c') ∧
    (∀ k x l, answer (.ofText source) k = .error (.lexical (.unexpectedCharacter x l)) →
      ∀ j, k ≤ j →
        answer (.ofText source) j = .error (.lexical (.unexpectedCharacter x l))) ∧
    (∀ k t, answer (.ofText source) k = .ok t → ∀ j, k < j →
      answer (.ofText source) j = .ok (.block [] (Location.start.after source.toList))) ∧
    ∃ r, ((∃ x l, r = .error (.lexical (.unexpectedCharacter x l))) ∨
        r = .ok (.block [] (Location.start.after source.toList))) ∧
      ∀ k, source.length ≤ k → answer (.ofText source) k = r := by
  have hlength : (Cursor.ofText source).rest.length = source.length := String.length_toList
  refine ⟨fun n => ?_, fun k e h => recovers_of_answer h,
    fun k x l h j hj => answer_of_unexpectedCharacter h hj,
    fun k t h j hj => answer_of_success h hj, ?_⟩
  · have hrun := run_replicate_program (.ofText source) (.ofText source) n
    exact congrArg (Session.Reply.done :: ·) hrun
  · have hlast := exists_last_answer (.ofText source)
    rwa [hlength] at hlast

/-- A bracket is refused and taken, and the character behind it stays. Behind a program there is
an empty one. -/
theorem repeated_calls_settle_bracket :
    let s := TokenStream.ofText ") $"
    let e := ParseError.lexical (.unexpectedCharacter '$' ⟨1, 3⟩)
    let bracket : Token := ⟨.punctuation, ")", ⟨1, 1⟩⟩
    answer s 0 = .error (.syntactic (.unexpectedToken bracket)) ∧
      (∃ c c', remaining s 1 = .ofCursor c' ∧
        Cursor.Recovers c (.syntactic (.unexpectedToken bracket)) c') ∧
      (∀ j, 1 ≤ j → answer s j = .error e) ∧
      answer (.ofText "x;") 0 = .ok (.block [.reference "x" ⟨1, 1⟩] ⟨1, 1⟩) ∧
      ∀ j, 0 < j → answer (.ofText "x;") j = .ok (.block [] ⟨1, 3⟩) := by
  intro s e bracket
  obtain ⟨-, hrecovers, hstuck, -⟩ := repeated_calls_settle ") $"
  obtain ⟨-, -, -, hsuccess, -⟩ := repeated_calls_settle "x;"
  have hfirst : answer s 0 = .error (.syntactic (.unexpectedToken bracket)) := by
    with_unfolding_all rfl
  have hsecond : answer s 1 = .error e := by with_unfolding_all rfl
  have hprogram : answer (.ofText "x;") 0 = .ok (.block [.reference "x" ⟨1, 1⟩] ⟨1, 1⟩) := by
    with_unfolding_all rfl
  obtain ⟨c, c', -, -, hrest, hc'⟩ := hrecovers 0 _ hfirst
  exact ⟨hfirst, ⟨c, c', hrest, hc'⟩, hstuck 1 '$' ⟨1, 3⟩ hsecond, hprogram,
    hsuccess 0 _ hprogram⟩

end Parser

end ExprLang
