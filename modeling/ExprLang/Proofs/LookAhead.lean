import ExprLang.Proofs.Delivery

set_option autoImplicit false

/-! # Looking ahead

A lexer that has looked at its next token, and the lexer before the look, answer the same from then
on: `Lexer.Looked l l'` says that `l'` is `l` with its next token looked at, and no step of a
session tells the two apart (`Session.Looked.step`). The next token that is taken makes them equal
again. A look that fails is the failure to take the token.

`look_ahead_is_transparent` says what this means for whole sessions: looks can be left out.
-/

namespace ExprLang

namespace Lexer

/-- The second lexer is the first one with its next token looked at. -/
def Looked (l l' : Lexer) : Prop := ∃ t, l.peek = (.ok t, l')

variable {l l' : Lexer}

/-- Taking a token leaves no token that was looked at. -/
theorem exists_next (l : Lexer) : ∃ c, l.next.2 = ofCursor c := by
  unfold next tellNext
  split
  · exact ⟨l.cursor, rfl⟩
  · exact ⟨_, rfl⟩

/-- A token is looked at by taking it and keeping it. -/
theorem peek_eq_ok_iff {t : Token} :
    l.peek = (.ok t, l') ↔ ∃ c, l.next = (.ok t, ofCursor c) ∧ l' = ⟨c, some t⟩ := by
  obtain ⟨c, hc⟩ := l.exists_next
  cases hnext : l.next with
  | mk found behind =>
      rw [hnext] at hc
      subst hc
      rw [peek_eq_keep, hnext]
      cases found with
      | ok u =>
          constructor
          · intro h
            cases h
            exact ⟨c, rfl, rfl⟩
          · rintro ⟨d, hd, rfl⟩
            cases hd
            rfl
      | error e =>
          constructor
          · intro h
            cases h
          · rintro ⟨d, hd, -⟩
            cases hd

/-- Whether the end is ahead cannot be said if the next token cannot be read, and then only. -/
theorem isAtEnd_eq_error_iff {e : LexError} :
    l.isAtEnd = (.error e, l') ↔ l.next = (.error e, l') := by
  rw [← peek_eq_error_iff]
  rw [isAtEnd_eq_isEnd]
  cases l.peek with
  | mk found behind =>
      cases found with
      | ok t => simp [isEnd]
      | error e' => simp [isEnd]

theorem drain_of_token {c behind : Cursor} {t : Token} (h : c.read = .token t behind) :
    drain c = match drain behind with
      | (.ok ts, last) => (.ok (t :: ts), last)
      | (.error e, last) => (.error e, last) := by
  rw [drain]
  split <;> rename_i hread <;> rw [h] at hread <;> cases hread
  rfl

theorem drain_of_ending {c last : Cursor} (h : c.read = .ending last) :
    drain c = (.ok [.eof last.location], last) := by
  rw [drain]
  split <;> rename_i hread <;> rw [h] at hread <;> cases hread
  rfl

namespace Looked

theorem next_eq (h : l.Looked l') : l'.next = l.next := by
  obtain ⟨t, ht⟩ := h
  obtain ⟨c, hnext, rfl⟩ := peek_eq_ok_iff.mp ht
  rw [hnext]
  exact next_of_ahead rfl

theorem peek_eq (h : l.Looked l') : l'.peek = l.peek := by
  rw [peek_eq_keep, peek_eq_keep, h.next_eq]

theorem isAtEnd_eq (h : l.Looked l') : l'.isAtEnd = l.isAtEnd := by
  rw [isAtEnd_eq_isEnd, isAtEnd_eq_isEnd, h.peek_eq]

/-- A look keeps the token that was looked at before, or reads one. -/
theorem eq_or_read (h : l.Looked l') :
    l' = l ∨ l.ahead = none ∧
      ((∃ t c, l.cursor.read = .token t c ∧ l' = ⟨c, some t⟩) ∨
        ∃ c, l.cursor.read = .ending c ∧ l' = ⟨c, some (.eof c.location)⟩) := by
  obtain ⟨t, ht⟩ := h
  obtain ⟨c, hnext, rfl⟩ := peek_eq_ok_iff.mp ht
  obtain ⟨d, ahead⟩ := l
  cases ahead with
  | some u =>
      rw [next_of_ahead rfl] at hnext
      cases hnext
      exact .inl rfl
  | none =>
      rw [next_of_ahead_eq_none rfl] at hnext
      refine .inr ⟨rfl, ?_⟩
      cases hread : d.read with
      | token u behind =>
          simp only [hread] at hnext
          cases hnext
          exact .inl ⟨t, behind, rfl, rfl⟩
      | ending last =>
          simp only [hread] at hnext
          cases hnext
          exact .inr ⟨last, rfl, rfl⟩
      | fault e behind => simp only [hread] at hnext; cases hnext
      | stuck x before => simp only [hread] at hnext; cases hnext

theorem tokenize_eq (h : l.Looked l') : l'.tokenize = l.tokenize := by
  obtain rfl | ⟨hempty, ⟨t, c, hread, rfl⟩ | ⟨c, hread, rfl⟩⟩ := h.eq_or_read
  · rfl
  · -- the token that is kept is the first one that draining takes
    have ht : t.isEof = false := (Cursor.location_of_read_token hread).2.2
    simp only [tokenize, hempty, drain_of_token hread, ht, Bool.false_eq_true, if_false]
    cases drain c with
    | mk found last => cases found <;> rfl
  · simp only [tokenize, hempty, drain_of_ending hread]
    rfl

theorem stream_eq (h : l.Looked l') : l'.stream = l.stream := by
  obtain rfl | ⟨hempty, ⟨t, c, hread, rfl⟩ | ⟨c, hread, rfl⟩⟩ := h.eq_or_read
  · rfl
  · have ht : t.isEof = false := (Cursor.location_of_read_token hread).2.2
    rw [stream_of_ahead rfl ht, stream, hempty]
    exact (TokenStream.ofCursor_of_token hread).symm
  · rw [stream, stream, hempty]
    exact (TokenStream.ofCursor_of_ending hread).symm

end Looked

end Lexer

/-! ## Sessions -/

namespace Session

open Lexer

/-- Does the step look at the next token and leave it? -/
def Command.isLook : Command → Bool
  | .peek => true
  | .isAtEnd => true
  | _ => false

/-- The session that steps in a row leave. -/
def after (s : Session) : List Command → Session
  | [] => s
  | command :: commands => (s.step command).2.after commands

/-- The steps with the replies to them. -/
def trace (s : Session) (commands : List Command) : List (Command × Reply) :=
  commands.zip (s.run commands)

/-- What a step comes to when tokens are only taken: nothing if it was a look, or the failure to
take a token if the look has failed. -/
def taken (made : Command × Reply) : Option (Command × Reply) :=
  if made.1.isLook then made.2.error?.map fun e => (.next, .token (.error e)) else some made

theorem run_append (s : Session) (xs ys : List Command) :
    s.run (xs ++ ys) = s.run xs ++ (s.after xs).run ys := by
  induction xs generalizing s with
  | nil => rfl
  | cons x xs ih => rw [List.cons_append, run, run, ih, List.cons_append, after]

theorem after_append (s : Session) (xs ys : List Command) :
    s.after (xs ++ ys) = (s.after xs).after ys := by
  induction xs generalizing s with
  | nil => rfl
  | cons x xs ih => rw [List.cons_append, after, after, ih]

theorem length_run (s : Session) (xs : List Command) : (s.run xs).length = xs.length := by
  induction xs generalizing s with
  | nil => rfl
  | cons x xs ih => rw [run, List.length_cons, List.length_cons, ih]

theorem map_fst_trace (s : Session) (ks : List Command) : (s.trace ks).map Prod.fst = ks :=
  List.map_fst_zip (Nat.le_of_eq (s.length_run ks).symm)

theorem trace_cons (s : Session) (k : Command) (ks : List Command) :
    s.trace (k :: ks) = (k, (s.step k).1) :: (s.step k).2.trace ks := rfl

/-- The sessions are at tokens, and the second one has looked at the next token of the first. -/
inductive Looked : Session → Session → Prop where
  | intro {l l' : Lexer} {saved : Cursor} : l.Looked l' →
      Looked ⟨.tokens l, saved⟩ ⟨.tokens l', saved⟩

/-- No step tells apart whether the next token was looked at, and a step that has to do with tokens
leaves no difference. -/
theorem Looked.step {s s' : Session} (h : s.Looked s') (k : Command) :
    (s'.step k).1 = (s.step k).1 ∧
      ((s'.step k).2 = (s.step k).2 ∨ k ≠ .next ∧ (s.step k).2.Looked (s'.step k).2) := by
  obtain ⟨h⟩ := h
  cases k with
  | peek => simp only [Session.step, readTokens, h.peek_eq, true_or, and_self]
  | next => simp only [Session.step, readTokens, h.next_eq, true_or, and_self]
  | isAtEnd => simp only [Session.step, readTokens, h.isAtEnd_eq, true_or, and_self]
  | tokenize => simp only [Session.step, readTokens, h.tokenize_eq, true_or, and_self]
  | toPrograms => simp only [Session.step, h.stream_eq, true_or, and_self]
  | _ =>
      refine ⟨rfl, .inr ⟨fun hnext => ?_, .intro h⟩⟩
      cases hnext

theorem Looked.run_eq {s s' : Session} (h : s.Looked s') (ks : List Command) :
    s'.run ks = s.run ks := by
  induction ks generalizing s s' with
  | nil => rfl
  | cons k ks ih =>
      obtain ⟨hreply, hsame | ⟨-, hlooked⟩⟩ := h.step k
      · rw [run, run, hreply, hsame]
      · rw [run, run, hreply, ih hlooked]

theorem Looked.trace_eq {s s' : Session} (h : s.Looked s') (ks : List Command) :
    s'.trace ks = s.trace ks := by
  rw [trace, h.run_eq, trace]

/-- The next token that is taken makes up for the look. -/
theorem Looked.after_eq {s s' : Session} (h : s.Looked s') {ks : List Command}
    (hnext : .next ∈ ks) : s'.after ks = s.after ks := by
  induction ks generalizing s s' with
  | nil => cases hnext
  | cons k ks ih =>
      obtain ⟨-, hsame | ⟨hk, hlooked⟩⟩ := h.step k
      · rw [after, after, hsame]
      · exact ih hlooked ((List.mem_cons.mp hnext).resolve_left (Ne.symm hk))

/-- What a look leaves that has not failed. -/
theorem looked_step {s : Session} {k : Command} (hk : k.isLook = true)
    (h : (s.step k).1.error? = none) : (s.step k).2 = s ∨ s.Looked (s.step k).2 := by
  obtain ⟨stage, saved⟩ := s
  cases stage with
  | characters c => cases k <;> first | exact .inl rfl | cases hk
  | programs p => cases k <;> first | exact .inl rfl | cases hk
  | tokens l =>
      right
      cases hpeek : l.peek with
      | mk found l' =>
          cases k with
          | peek =>
              simp only [Session.step, readTokens, hpeek] at h ⊢
              cases found with
              | ok t => exact .intro ⟨t, hpeek⟩
              | error e => cases h
          | isAtEnd =>
              simp only [Session.step, readTokens, isAtEnd_eq_isEnd, hpeek, isEnd] at h ⊢
              cases found with
              | ok t => exact .intro ⟨t, hpeek⟩
              | error e => cases h
          | _ => cases hk

/-- A look that fails is the failure to take the token. -/
theorem step_next_of_look {s : Session} {k : Command} {e : LexError} (hk : k.isLook = true)
    (h : (s.step k).1.error? = some e) : s.step .next = (.token (.error e), (s.step k).2) := by
  obtain ⟨stage, saved⟩ := s
  cases stage with
  | characters c => cases k <;> cases h
  | programs p => cases k <;> cases h
  | tokens l =>
      cases hpeek : l.peek with
      | mk found l' =>
          have hnext : found = .error e → l.next = (.error e, l') := by
            rintro rfl
            exact peek_eq_error_iff.mp hpeek
          cases k with
          | peek =>
              simp only [Session.step, readTokens, hpeek] at h ⊢
              cases found with
              | ok t => cases h
              | error e' => cases h; simp only [hnext rfl]
          | isAtEnd =>
              simp only [Session.step, readTokens, isAtEnd_eq_isEnd, hpeek, isEnd] at h ⊢
              cases found with
              | ok t => cases h
              | error e' => cases h; simp only [hnext rfl]
          | _ => cases hk

/-- What looks come to, step by step, is what a session without looks answers. -/
theorem trace_taken (s : Session) (ks : List Command) :
    s.trace (((s.trace ks).filterMap taken).map Prod.fst) = (s.trace ks).filterMap taken := by
  induction ks generalizing s with
  | nil => rfl
  | cons k ks ih =>
      rw [trace_cons]
      cases hk : k.isLook with
      | false =>
          have htaken : taken (k, (s.step k).1) = some (k, (s.step k).1) := by
            simp only [taken, hk, Bool.false_eq_true, if_false]
          rw [List.filterMap_cons_some htaken, List.map_cons, trace_cons, ih]
      | true =>
          cases herror : (s.step k).1.error? with
          | none =>
              -- the steps that follow answer what they answer without the look
              have htaken : taken (k, (s.step k).1) = none := by
                simp only [taken, hk, herror, if_true, Option.map_none]
              have hlater : (s.step k).2.trace ks = s.trace ks := by
                obtain hsame | hlooked := looked_step hk herror
                · rw [hsame]
                · exact hlooked.trace_eq ks
              rw [List.filterMap_cons_none htaken, hlater, ih]
          | some e =>
              have htaken : taken (k, (s.step k).1) = some (.next, .token (.error e)) := by
                simp only [taken, hk, herror, if_true, Option.map_some]
              rw [List.filterMap_cons_some htaken, List.map_cons, trace_cons,
                step_next_of_look hk herror, ih]

/-- Where no look fails, what looks come to is that they are left out. -/
theorem filterMap_taken {steps : List (Command × Reply)}
    (h : ∀ made ∈ steps, made.1.isLook = true → made.2.error? = none) :
    steps.filterMap taken = steps.filter fun made => !made.1.isLook := by
  induction steps with
  | nil => rfl
  | cons made steps ih =>
      obtain ⟨hmade, hsteps⟩ := List.forall_mem_cons.mp h
      cases hlook : made.1.isLook with
      | false => simp [taken, hlook, ih hsteps]
      | true => simp [taken, hlook, hmade hlook, ih hsteps]

/-- Where no look fails, a session answers the other steps as if there were no looks. -/
theorem trace_filter {s : Session} {ks : List Command}
    (h : ∀ made ∈ s.trace ks, made.1.isLook = true → made.2.error? = none) :
    s.trace (ks.filter fun k => !k.isLook) = (s.trace ks).filter fun made => !made.1.isLook := by
  have hrest : ks.filter (fun k => !k.isLook) = ((s.trace ks).filterMap taken).map Prod.fst := by
    rw [filterMap_taken h]
    calc ks.filter (fun k => !k.isLook)
        = ((s.trace ks).map Prod.fst).filter (fun k => !k.isLook) := by
          rw [map_fst_trace]
      _ = ((s.trace ks).filter fun made => !made.1.isLook).map Prod.fst := List.filter_map
  rw [hrest, trace_taken, filterMap_taken h]

/-- A look that has not failed can be left out: the other steps answer the same, and once a token is
taken behind it the session is the same. A look that fails answers and leaves what taking the token
does. So the steps that are not looks answer what they answer when each failed look takes the token
and every other look is left out; and a token that was looked at is delivered once, at its place. -/
theorem look_ahead_is_transparent (l : Lexer) (saved : Cursor) :
    let s : Session := ⟨.tokens l, saved⟩
    (∀ xs k ys, k.isLook = true → ((s.after xs).step k).1.error? = none →
      (s.run (xs ++ k :: ys)).eraseIdx xs.length = s.run (xs ++ ys) ∧
        (.next ∈ ys → s.after (xs ++ k :: ys) = s.after (xs ++ ys))) ∧
    (∀ e l', (l.peek = (.error e, l') ↔ l.next = (.error e, l')) ∧
      (l.isAtEnd = (.error e, l') ↔ l.next = (.error e, l'))) ∧
    (∀ ks, s.trace (((s.trace ks).filterMap taken).map Prod.fst) =
        (s.trace ks).filterMap taken ∧
      ((∀ made ∈ s.trace ks, made.1.isLook = true → made.2.error? = none) →
        s.trace (ks.filter fun k => !k.isLook) =
          (s.trace ks).filter fun made => !made.1.isLook)) ∧
    ∀ t l', l.peek = (.ok t, l') → l'.stream = l.stream ∧
      l.stream = if t.isEof then .ending t.location else .token t l.next.2.stream := by
  intro s
  refine ⟨?_, fun e l' => ⟨peek_eq_error_iff, isAtEnd_eq_error_iff⟩,
    fun ks => ⟨s.trace_taken ks, trace_filter⟩, ?_⟩
  · intro xs k ys hk herror
    have hlook := looked_step hk herror
    have hlater : ((s.after xs).step k).2.run ys = (s.after xs).run ys := by
      obtain hsame | hlooked := hlook
      · rw [hsame]
      · exact hlooked.run_eq ys
    refine ⟨?_, fun hnext => ?_⟩
    · rw [run_append, run_append, run, hlater, ← s.length_run xs]
      rw [List.eraseIdx_append_of_length_le (Nat.le_refl _), Nat.sub_self, List.eraseIdx_cons_zero]
    · rw [after_append, after_append, after]
      obtain hsame | hlooked := hlook
      · rw [hsame]
      · exact hlooked.after_eq hnext
  · intro t l' hpeek
    have hstream : l'.stream = l.stream := Lexer.Looked.stream_eq ⟨t, hpeek⟩
    refine ⟨hstream, ?_⟩
    obtain ⟨c, hnext, rfl⟩ := peek_eq_ok_iff.mp hpeek
    rw [← hstream, hnext]
    rfl

/-- A look at a name that stays, and a look at a literal that cannot be read, which goes on behind
it. -/
theorem look_ahead_is_transparent_escape :
    let l : Lexer := .ofText "x'\\qy"
    let s : Session := ⟨.tokens l, .ofText "x'\\qy"⟩
    let x : Token := ⟨.identifier, "x", ⟨1, 1⟩⟩
    let y : Token := ⟨.identifier, "y", ⟨1, 5⟩⟩
    let e : LexError := .unknownEscape 'q' ⟨1, 3⟩
    let front : List Command := [.peek, .next, .isAtEnd]
    (s.run (front ++ [.peek, .next])).eraseIdx 3 = s.run (front ++ [.next]) ∧
      s.after (front ++ [.peek, .next]) = s.after (front ++ [.next]) ∧
      s.trace [.next, .next, .next] =
        [(.next, .token (.ok x)), (.next, .token (.error e)), (.next, .token (.ok y))] ∧
      s.trace [.next] = [(.next, .token (.ok x))] ∧
      l.peek.2.stream = l.stream := by
  intro l s x y e front
  let c : Cursor := ⟨['\'', '\\', 'q', 'y'], ⟨1, 2⟩⟩
  have hpeek : l.peek = (.ok x, ⟨c, some x⟩) := by with_unfolding_all rfl
  have hx : s.step .peek = (.token (.ok x), ⟨.tokens ⟨c, some x⟩, s.saved⟩) := by
    with_unfolding_all rfl
  have hnext : Session.step ⟨.tokens ⟨c, some x⟩, s.saved⟩ .next =
      (.token (.ok x), ⟨.tokens (.ofCursor c), s.saved⟩) := rfl
  have hfails : Session.step ⟨.tokens (.ofCursor c), s.saved⟩ .isAtEnd =
      (.truth (.error e), ⟨.tokens (.ofCursor ⟨['y'], ⟨1, 5⟩⟩), s.saved⟩) := by
    with_unfolding_all rfl
  have hy : Session.step ⟨.tokens (.ofCursor ⟨['y'], ⟨1, 5⟩⟩), s.saved⟩ .peek =
      (.token (.ok y), ⟨.tokens ⟨⟨[], ⟨1, 6⟩⟩, some y⟩, s.saved⟩) := by
    with_unfolding_all rfl
  obtain ⟨hleft, -, htaken, hstream⟩ := look_ahead_is_transparent l s.saved
  have hlook : ((s.after front).step .peek).1.error? = none := by
    rw [after, hx, after, hnext, after, hfails, after, hy]
    rfl
  obtain ⟨hrun, hafter⟩ := hleft front .peek [.next] rfl hlook
  refine ⟨hrun, hafter (List.mem_singleton_self _), ?_, ?_, (hstream x _ hpeek).1⟩
  · have h := (htaken (front ++ [.peek, .next])).1
    have hsteps : s.trace (front ++ [.peek, .next]) =
        [(.peek, .token (.ok x)), (.next, .token (.ok x)), (.isAtEnd, .truth (.error e)),
          (.peek, .token (.ok y)), (.next, .token (.ok y))] := by
      show s.trace [.peek, .next, .isAtEnd, .peek, .next] = _
      rw [trace_cons, hx, trace_cons, hnext, trace_cons, hfails, trace_cons, hy]
      rfl
    rw [hsteps] at h
    exact h
  · have h := (htaken [.peek, .next]).2
    have hsteps : s.trace [.peek, .next] =
        [(.peek, .token (.ok x)), (.next, .token (.ok x))] := by
      rw [trace_cons, hx, trace_cons, hnext]
      rfl
    rw [hsteps] at h
    exact h (by simp [Reply.error?])

end Session

end ExprLang
