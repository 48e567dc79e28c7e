import ExprLang.Lexer

set_option autoImplicit false

/-! # Streams with tokens in front

`TokenStream.prepend` puts tokens in front of a stream. The stream of a text that falls into
tokens is all of these tokens in front of the end (`tokenize_eq_ok_iff_stream`).
-/

namespace ExprLang

namespace TokenStream

/-- The stream that has these tokens in front of `r`. -/
def prepend (r : TokenStream) (ts : List Token) : TokenStream := ts.foldr .token r

@[simp] theorem prepend_nil (r : TokenStream) : r.prepend [] = r := rfl

@[simp] theorem prepend_cons (r : TokenStream) (t : Token) (ts : List Token) :
    r.prepend (t :: ts) = .token t (r.prepend ts) := rfl

theorem prepend_append (r : TokenStream) (ts us : List Token) :
    r.prepend (ts ++ us) = (r.prepend us).prepend ts := List.foldr_append

theorem size_prepend (r : TokenStream) (ts : List Token) :
    (r.prepend ts).size = ts.length + r.size := by
  induction ts with
  | nil => simp
  | cons t ts ih =>
      rw [prepend_cons, size, ih, List.length_cons]
      omega

/-- The tokens in front of a stream are determined by it. -/
theorem prepend_cancel {r : TokenStream} {ts us : List Token} (h : r.prepend ts = r.prepend us) :
    ts = us := by
  induction ts generalizing us with
  | nil =>
      have hsize := congrArg size h
      rw [size_prepend, size_prepend, List.length_nil] at hsize
      exact (List.length_eq_zero_iff.mp (by omega)).symm
  | cons t ts ih =>
      cases us with
      | nil =>
          have hsize := congrArg size h
          rw [size_prepend, size_prepend, List.length_cons, List.length_nil] at hsize
          omega
      | cons u us =>
          obtain ⟨rfl, htail⟩ := token.inj h
          rw [ih htail]

/-- Where no token comes next, the tokens in front of a stream go on to there. -/
theorem exists_of_prepend_eq {q r : TokenStream} {ts us : List Token}
    (hq : ∀ t rest, q ≠ .token t rest) (h : q.prepend us = r.prepend ts) :
    ∃ vs, us = ts ++ vs ∧ r = q.prepend vs := by
  induction ts generalizing us with
  | nil => exact ⟨us, rfl, h.symm⟩
  | cons t ts ih =>
      cases us with
      | nil => exact absurd h (hq t _)
      | cons u us =>
          rw [prepend_cons, prepend_cons] at h
          obtain ⟨rfl, htail⟩ := token.inj h
          obtain ⟨vs, rfl, hr⟩ := ih htail
          exact ⟨vs, rfl, hr⟩

/-- Tokens in front of a stream with an end are tokens in front of that end. -/
theorem exists_of_prepend_eq_ending {r : TokenStream} {l : Location} {ts us : List Token}
    (h : (ending l).prepend us = r.prepend ts) :
    ∃ vs, us = ts ++ vs ∧ r = (ending l).prepend vs :=
  exists_of_prepend_eq (fun _ _ => nofun) h

/-- A stream offers tokens without a failure if and only if it is these tokens in front of an
end. -/
theorem tokens_eq_ok_iff {s : TokenStream} {ts : List Token} :
    s.tokens = .ok ts ↔ ∃ us l, ts = us ++ [.eof l] ∧ s = (ending l).prepend us := by
  constructor
  · intro h
    induction s generalizing ts with
    | token t rest ih =>
        cases hrest : rest.tokens with
        | ok vs =>
            obtain ⟨us, l, rfl, hprepend⟩ := ih hrest
            have hts : t :: (us ++ [Token.eof l]) = ts := by simpa [tokens, hrest] using h
            refine ⟨t :: us, l, hts.symm, ?_⟩
            rw [prepend_cons, ← hprepend]
        | error e => simp [tokens, hrest] at h
    | fault e rest => simp [tokens] at h
    | stuck x l => simp [tokens] at h
    | ending l =>
        have hts : [Token.eof l] = ts := by simpa [tokens] using h
        exact ⟨[], l, hts.symm, rfl⟩
  · rintro ⟨us, l, rfl, rfl⟩
    induction us with
    | nil => rfl
    | cons u us ih => simp [tokens, ih]

/-- A stream does not offer its tokens if and only if there is a failure behind some of them. -/
theorem tokens_eq_error_iff {s : TokenStream} {e : LexError} :
    s.tokens = .error e ↔ ∃ (us : List Token) (r : TokenStream), s = r.prepend us ∧
      r.head = .error e := by
  constructor
  · intro h
    induction s with
    | token t rest ih =>
        cases hrest : rest.tokens with
        | ok vs => simp [tokens, hrest] at h
        | error e' =>
            obtain rfl : e' = e := by simpa [tokens, hrest] using h
            obtain ⟨us, r, rfl, hr⟩ := ih hrest
            exact ⟨t :: us, r, rfl, hr⟩
    | fault e' rest =>
        rw [tokens] at h
        cases h
        exact ⟨[], _, rfl, rfl⟩
    | stuck x l =>
        rw [tokens] at h
        cases h
        exact ⟨[], _, rfl, rfl⟩
    | ending l =>
        rw [tokens] at h
        cases h
  · rintro ⟨us, r, rfl, hr⟩
    induction us with
    | nil =>
        rw [prepend_nil]
        cases r with
        | token t rest => cases hr
        | fault e' rest => cases hr; rw [tokens]
        | stuck x l => cases hr; rw [tokens]
        | ending l => cases hr
    | cons u us ih => simp [tokens, ih]

end TokenStream

/-- A text falls into tokens if and only if its stream is these tokens in front of the end. -/
theorem tokenize_eq_ok_iff_stream {text : String} {ts : List Token} :
    tokenize text = .ok ts ↔
      ∃ us l, ts = us ++ [.eof l] ∧
        TokenStream.ofText text = (TokenStream.ending l).prepend us := by
  rw [← TokenStream.tokens_eq_ok_iff]
  show (Lexer.drain (.ofText text)).1 = .ok ts ↔ _
  rw [Lexer.drain_fst]
  rfl

end ExprLang
