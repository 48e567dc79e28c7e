import ExprLang.Proofs.LexicalError
import ExprLang.Proofs.Segmentation

set_option autoImplicit false

/-! # What a lexer delivers

A lexer keeps at most one token that was looked at, and reads the text again where it failed or
ended. All the same, what its calls answer is the front of its stream, and what they leave is the
rest of the stream, in whatever order it is looked at and taken (`Lexer.next_spec`,
`Lexer.peek_of_head_eq_ok`). `Lexer.Delivers l ts l'` says that successive calls take the tokens
`ts`.

Locations are ordered as places in the text. The tokens of a text are in this order and no two of
them are at one place, so the tokens in front of a token are determined by it
(`Lexer.Delivers.unique_of_next`).
-/

namespace ExprLang

/-! ## Earlier and later -/

namespace Location

instance : LT Location := ⟨fun l m => l.line < m.line ∨ l.line = m.line ∧ l.column < m.column⟩

instance : LE Location := ⟨fun l m => l.line < m.line ∨ l.line = m.line ∧ l.column ≤ m.column⟩

theorem lt_iff {l m : Location} :
    l < m ↔ l.line < m.line ∨ l.line = m.line ∧ l.column < m.column := Iff.rfl

theorem le_iff {l m : Location} :
    l ≤ m ↔ l.line < m.line ∨ l.line = m.line ∧ l.column ≤ m.column := Iff.rfl

theorem le_refl (l : Location) : l ≤ l := .inr ⟨rfl, Nat.le_refl _⟩

theorem lt_irrefl (l : Location) : ¬ l < l := by
  rw [lt_iff]
  omega

theorem le_of_lt {l m : Location} (h : l < m) : l ≤ m := by
  rw [lt_iff] at h
  rw [le_iff]
  omega

theorem lt_of_lt_of_le {l m n : Location} (h : l < m) (h' : m ≤ n) : l < n := by
  rw [lt_iff] at h ⊢
  rw [le_iff] at h'
  omega

theorem le_trans {l m n : Location} (h : l ≤ m) (h' : m ≤ n) : l ≤ n := by
  rw [le_iff] at h h' ⊢
  omega

theorem lt_advance (l : Location) (c : Char) : l < l.advance c := by
  rw [lt_iff, advance]
  split
  · exact .inl (Nat.lt_succ_self _)
  · exact .inr ⟨rfl, Nat.lt_succ_self _⟩

theorem le_after (l : Location) (cs : List Char) : l ≤ l.after cs := by
  induction cs generalizing l with
  | nil => exact le_refl l
  | cons c cs ih => exact le_trans (le_of_lt (l.lt_advance c)) (ih (l.advance c))

theorem lt_after (l : Location) {cs : List Char} (hcs : cs ≠ []) : l < l.after cs := by
  cases cs with
  | nil => exact absurd rfl hcs
  | cons c cs => exact lt_of_lt_of_le (l.lt_advance c) (le_after (l.advance c) cs)

end Location

namespace Cursor

/-- A token is ahead of the cursor that reads it, and the cursor behind it is further on. -/
theorem location_of_read_token {c behind : Cursor} {t : Token} (h : c.read = .token t behind) :
    c.location ≤ t.location ∧ t.location < behind.location ∧ t.isEof = false := by
  obtain ⟨gap, kind, value, text, -, -, hlexeme, rfl, hbehind⟩ := exists_of_read_token h
  refine ⟨Location.le_after _ gap, ?_, beq_eq_false_iff_ne.mpr hlexeme.kind_ne_eof⟩
  rw [hbehind, Location.after_append]
  exact Location.lt_after _ hlexeme.text_ne_nil

/-- What cannot be read is ahead of the cursor, and the error is in it. -/
theorem location_of_take_error {c behind : Cursor} {e : LexError}
    (h : Lexer.take c.read = (.error e, behind)) : c.location ≤ e.location := by
  obtain ⟨xs, l⟩ := c
  obtain ⟨gap, rest, rfl, hgap⟩ := exists_longestGap xs
  rw [read, skipGap_of_isLongestGap hgap, take_readHere_eq_error_iff] at h
  have hgap : l ≤ l.after gap := Location.le_after l gap
  cases h with
  | unexpectedCharacter => exact hgap
  | unterminatedLiteral => exact hgap
  | unknownEscape => exact Location.le_trans hgap (Location.le_after _ _)

/-- A character that begins no token is found again where it was found. -/
theorem read_of_read_stuck {c before : Cursor} {x : Char} (h : c.read = .stuck x before) :
    before.read = .stuck x before := by
  obtain ⟨xs, l⟩ := c
  obtain ⟨gap, rest, rfl, hgap⟩ := exists_longestGap xs
  rw [read, skipGap_of_isLongestGap hgap] at h
  have hnil : IsLongestGap rest [] := isLongestGap_iff.mpr ⟨.nil, (isLongestGap_iff.mp hgap).2⟩
  have hskip : skipGap ⟨rest, l.after gap⟩ = ⟨rest, l.after gap⟩ :=
    skipGap_of_isLongestGap hnil (l.after gap)
  have hfault : IsFault rest (l.after gap) (.unexpectedCharacter x before.location) before := by
    rw [← take_readHere_eq_error_iff, h]
    rfl
  generalize l.after gap = j at h hskip hfault
  obtain ⟨rest', m⟩ := before
  cases hfault with
  | unexpectedCharacter hrest hx => rwa [read, hskip]

/-- At the end there is nothing ahead. -/
theorem rest_of_read_ending {c last : Cursor} (h : c.read = .ending last) : last.rest = [] := by
  unfold read at h
  obtain ⟨hrest, rfl⟩ := eq_of_readHere_ending h
  exact hrest

end Cursor

namespace TokenStream

/-- A token that is not the end token is in the stream. -/
theorem eq_token_of_head {s : TokenStream} {t : Token} (h : s.head = .ok t)
    (ht : t.isEof = false) : s = .token t s.tail := by
  cases s with
  | token u rest =>
      cases h
      rfl
  | fault e rest => cases h
  | stuck x l => cases h
  | ending l =>
      cases h
      cases ht

/-- A token in front of a stream is read off the text. -/
theorem exists_of_ofCursor_eq_token {c : Cursor} {t : Token} {s : TokenStream}
    (h : ofCursor c = .token t s) : ∃ behind, c.read = .token t behind ∧ ofCursor behind = s := by
  cases hread : c.read with
  | token u behind =>
      rw [ofCursor_of_token hread] at h
      obtain ⟨rfl, hrest⟩ := token.inj h
      exact ⟨behind, rfl, hrest⟩
  | fault e behind => rw [ofCursor_of_fault hread] at h; cases h
  | stuck x before => rw [ofCursor_of_stuck hread] at h; cases h
  | ending last => rw [ofCursor_of_ending hread] at h; cases h

theorem exists_of_ofCursor_eq_ending {c : Cursor} {m : Location} (h : ofCursor c = .ending m) :
    ∃ last, c.read = .ending last ∧ last.location = m := by
  cases hread : c.read with
  | token t behind => rw [ofCursor_of_token hread] at h; cases h
  | ending last =>
      rw [ofCursor_of_ending hread] at h
      cases h
      exact ⟨last, rfl, rfl⟩
  | fault e behind => rw [ofCursor_of_fault hread] at h; cases h
  | stuck x before => rw [ofCursor_of_stuck hread] at h; cases h

/-- What holds of every token that is read holds of the tokens of a text. -/
theorem forall_of_ofCursor {P : Token → Prop}
    (hP : ∀ c t behind, Cursor.read c = .token t behind → P t) {c : Cursor} {s : TokenStream}
    {ts : List Token} (h : ofCursor c = s.prepend ts) : ∀ t ∈ ts, P t := by
  induction ts generalizing c with
  | nil => exact nofun
  | cons t ts ih =>
      obtain ⟨behind, hread, hrest⟩ := exists_of_ofCursor_eq_token h
      exact List.forall_mem_cons.mpr ⟨hP c t behind hread, ih hrest⟩

/-- No token of a text is the end token. -/
theorem isEof_of_ofCursor {c : Cursor} {s : TokenStream} {ts : List Token}
    (h : ofCursor c = s.prepend ts) : ∀ t ∈ ts, t.isEof = false :=
  forall_of_ofCursor (fun _ _ _ hread => (Cursor.location_of_read_token hread).2.2) h

theorem ofCursor_nil (m : Location) : ofCursor ⟨[], m⟩ = .ending m := by
  have hread : Cursor.read ⟨[], m⟩ = .ending ⟨[], m⟩ := rfl
  exact ofCursor_of_ending hread

/-- A stream goes on up to a failure or to the end. -/
theorem exists_prepend (s : TokenStream) :
    ∃ (ts : List Token) (r : TokenStream), s = r.prepend ts ∧ ∀ t rest, r ≠ .token t rest := by
  induction s with
  | token t rest ih =>
      obtain ⟨ts, r, rfl, hr⟩ := ih
      exact ⟨t :: ts, r, rfl, hr⟩
  | fault e rest => exact ⟨[], _, rfl, by simp⟩
  | stuck x l => exact ⟨[], _, rfl, by simp⟩
  | ending l => exact ⟨[], _, rfl, by simp⟩

end TokenStream

/-! ## Calls and streams -/

namespace Lexer

/-- If the end token was looked at, nothing is ahead. -/
def Sound (l : Lexer) : Prop := ∀ t, l.ahead = some t → t.isEof = true → ∃ m, l.AtEnd m

theorem sound_ofCursor (c : Cursor) : (ofCursor c).Sound := fun _ h => nomatch h

/-- A token that was looked at is in front of the stream. -/
theorem stream_of_ahead {l : Lexer} {t : Token} (h : l.ahead = some t) (ht : t.isEof = false) :
    l.stream = .token t (.ofCursor l.cursor) := by
  simp only [stream, h, ht, Bool.false_eq_true, if_false]

theorem AtEnd.stream_eq {l : Lexer} {m : Location} (h : l.AtEnd m) : l.stream = .ending m := by
  obtain ⟨hcursor, hahead | hahead⟩ := h
  · rw [stream, hahead, hcursor]
    exact TokenStream.ofCursor_nil m
  · rw [stream, hahead]
    rfl

/-- No token of the stream is the end token. -/
theorem isEof_of_stream {l : Lexer} (h : l.Sound) {s : TokenStream} {ts : List Token}
    (hstream : l.stream = s.prepend ts) : ∀ t ∈ ts, t.isEof = false := by
  cases hahead : l.ahead with
  | none =>
      rw [stream, hahead] at hstream
      exact TokenStream.isEof_of_ofCursor hstream
  | some t =>
      cases ts with
      | nil => exact nofun
      | cons u us =>
          cases ht : t.isEof with
          | true =>
              obtain ⟨m, hend⟩ := h t hahead ht
              rw [hend.stream_eq] at hstream
              cases hstream
          | false =>
              rw [stream_of_ahead hahead ht] at hstream
              obtain ⟨rfl, hrest⟩ := TokenStream.token.inj hstream
              exact List.forall_mem_cons.mpr ⟨ht, TokenStream.isEof_of_ofCursor hrest⟩

/-- A stream that has the end token in front is at its end. -/
theorem stream_of_head_eof {l : Lexer} {t : Token} (h : l.Sound) (hhead : l.stream.head = .ok t)
    (ht : t.isEof = true) : l.stream = .ending t.location := by
  cases hstream : l.stream with
  | token u rest =>
      rw [hstream] at hhead
      cases hhead
      have hfront : l.stream = TokenStream.prepend rest [t] := hstream
      have hu := isEof_of_stream h hfront t (List.mem_singleton_self t)
      rw [ht] at hu
      cases hu
  | fault e rest => rw [hstream] at hhead; cases hhead
  | stuck x m => rw [hstream] at hhead; cases hhead
  | ending m =>
      rw [hstream] at hhead
      cases hhead
      rfl

/-- The lexer without the token that was looked at. -/
theorem next_of_ahead {l : Lexer} {t : Token} (h : l.ahead = some t) :
    l.next = (.ok t, ofCursor l.cursor) := by
  rw [next, tellNext, h]
  rfl

theorem next_ofCursor (c : Cursor) :
    (ofCursor c).next.1 = (TokenStream.ofCursor c).head ∧
      ∃ c', (ofCursor c).next.2 = ofCursor c' ∧
        TokenStream.ofCursor c' = (TokenStream.ofCursor c).tail := by
  rw [next_of_ahead_eq_none rfl]
  show (take c.read).1 = _ ∧ ∃ c', ofCursor (take c.read).2 = ofCursor c' ∧ _
  cases hread : c.read with
  | token t behind =>
      rw [TokenStream.ofCursor_of_token hread]
      exact ⟨rfl, behind, rfl, rfl⟩
  | fault e behind =>
      rw [TokenStream.ofCursor_of_fault hread]
      exact ⟨rfl, behind, rfl, rfl⟩
  | stuck x before =>
      rw [TokenStream.ofCursor_of_stuck hread]
      exact ⟨rfl, before, rfl,
        TokenStream.ofCursor_of_stuck (Cursor.read_of_read_stuck hread)⟩
  | ending last =>
      obtain ⟨rest, m⟩ := last
      obtain rfl : rest = [] := Cursor.rest_of_read_ending hread
      rw [TokenStream.ofCursor_of_ending hread]
      exact ⟨rfl, ⟨[], m⟩, rfl, TokenStream.ofCursor_nil m⟩

/-- What is taken is the front of the stream, and the rest of the stream is left. -/
theorem next_spec {l : Lexer} (h : l.Sound) :
    l.next.1 = l.stream.head ∧
      ∃ c, l.next.2 = ofCursor c ∧ TokenStream.ofCursor c = l.stream.tail := by
  obtain ⟨c, ahead⟩ := l
  cases ahead with
  | none => exact next_ofCursor c
  | some t =>
      rw [next_of_ahead rfl]
      cases ht : t.isEof with
      | false =>
          rw [stream_of_ahead rfl ht]
          exact ⟨rfl, c, rfl, rfl⟩
      | true =>
          obtain ⟨m, hend⟩ := h t rfl ht
          rw [hend.stream_eq]
          obtain ⟨hcursor, hahead | hahead⟩ := hend
          · cases hahead
          · cases hahead
            obtain rfl : c = ⟨[], m⟩ := hcursor
            exact ⟨rfl, ⟨[], m⟩, rfl, TokenStream.ofCursor_nil m⟩

theorem next_fst {l : Lexer} (h : l.Sound) : l.next.1 = l.stream.head := (next_spec h).1

theorem next_snd {l : Lexer} (h : l.Sound) :
    ∃ c, l.next.2 = ofCursor c ∧ TokenStream.ofCursor c = l.stream.tail := (next_spec h).2

/-- The end token is taken at the end of the text only. -/
theorem exists_of_next_eof {l l' : Lexer} {t : Token} (h : l.Sound) (hnext : l.next = (.ok t, l'))
    (ht : t.isEof = true) : ∃ m, t = .eof m ∧ l' = ofCursor ⟨[], m⟩ := by
  obtain ⟨c, ahead⟩ := l
  cases ahead with
  | some u =>
      rw [next_of_ahead rfl] at hnext
      cases hnext
      obtain ⟨m, rfl, hahead | hahead⟩ := h t rfl ht
      · cases hahead
      · cases hahead
        exact ⟨m, rfl, rfl⟩
  | none =>
      rw [next_of_ahead_eq_none rfl] at hnext
      simp only at hnext
      cases hread : c.read with
      | token u behind =>
          rw [hread] at hnext
          cases hnext
          rw [(Cursor.location_of_read_token hread).2.2] at ht
          cases ht
      | fault e behind => rw [hread] at hnext; cases hnext
      | stuck x before => rw [hread] at hnext; cases hnext
      | ending last =>
          rw [hread] at hnext
          cases hnext
          obtain ⟨rest, m⟩ := last
          obtain rfl : rest = [] := Cursor.rest_of_read_ending hread
          exact ⟨m, rfl, rfl⟩

/-- A token that is taken is the one that the cursor reads. -/
theorem exists_of_next_token {c : Cursor} {l' : Lexer} {t : Token}
    (hnext : (ofCursor c).next = (.ok t, l')) (ht : t.isEof = false) :
    ∃ behind, c.read = .token t behind ∧ l' = ofCursor behind := by
  have hhead : (TokenStream.ofCursor c).head = .ok t := by rw [← (next_ofCursor c).1, hnext]
  obtain ⟨behind, hread, -⟩ :=
    TokenStream.exists_of_ofCursor_eq_token (TokenStream.eq_token_of_head hhead ht)
  rw [next_of_ahead_eq_none rfl] at hnext
  simp only [ofCursor, hread] at hnext
  cases hnext
  exact ⟨behind, hread, rfl⟩

/-- The token that is looked at is the front of the stream, and stays there. -/
theorem peek_of_head_eq_ok {l : Lexer} {t : Token} (h : l.Sound) (ht : l.stream.head = .ok t) :
    l.peek.1 = .ok t ∧ l.peek.2.Sound ∧ l.peek.2.stream = l.stream := by
  obtain ⟨c, hc, htail⟩ := next_snd h
  have hnext : l.next = (.ok t, ofCursor c) := by rw [← ht, ← next_fst h, ← hc]
  have hpeek : l.peek = (.ok t, ⟨c, some t⟩) := by
    rw [peek_eq_keep, hnext]
    rfl
  rw [hpeek]
  cases heof : t.isEof with
  | false =>
      refine ⟨rfl, ?_, ?_⟩
      · intro u hu hueof
        cases hu
        rw [heof] at hueof
        cases hueof
      · simp only [stream, heof, Bool.false_eq_true, if_false]
        rw [htail]
        exact (TokenStream.eq_token_of_head ht heof).symm
  | true =>
      obtain ⟨m, rfl, hend⟩ := exists_of_next_eof h hnext heof
      cases hend
      have hatEnd : AtEnd m ⟨⟨[], m⟩, some (.eof m)⟩ := ⟨rfl, .inr rfl⟩
      refine ⟨rfl, fun _ _ _ => ⟨m, hatEnd⟩, ?_⟩
      rw [hatEnd.stream_eq, stream_of_head_eof h ht rfl]
      rfl

/-! ## Tokens in a row -/

/-- Successive calls take these tokens, none of which is the end token, and leave the second
lexer. -/
inductive Delivers : Lexer → List Token → Lexer → Prop where
  | nil {l : Lexer} : Delivers l [] l
  | cons {l l' l'' : Lexer} {t : Token} {ts : List Token} : l.next = (.ok t, l') →
      t.isEof = false → Delivers l' ts l'' → Delivers l (t :: ts) l''

/-- Successive calls take these tokens, and no call takes more of them: the second lexer is at the
end of the text, or at what cannot be read. -/
def DeliversAll (l : Lexer) (ts : List Token) (l' : Lexer) : Prop :=
  l.Delivers ts l' ∧ ∀ t, l'.next.1 = .ok t → t.isEof = true

namespace Delivers

variable {l m n : Lexer} {ts us : List Token}

/-- What is delivered stands in front of the stream. -/
theorem stream_eq (h : l.Delivers ts m) (hl : l.Sound) :
    l.stream = m.stream.prepend ts ∧ m.Sound := by
  induction h with
  | nil => exact ⟨rfl, hl⟩
  | @cons l l' _ t ts hnext ht _ ih =>
      obtain ⟨c, hc, htail⟩ := next_snd hl
      have hhead : l.stream.head = .ok t := by rw [← next_fst hl, hnext]
      obtain rfl : l' = ofCursor c := by rw [← hc, hnext]
      obtain ⟨hstream, hsound⟩ := ih (sound_ofCursor c)
      refine ⟨?_, hsound⟩
      rw [TokenStream.eq_token_of_head hhead ht, ← htail, TokenStream.prepend_cons, ← hstream]
      rfl

/-- Two rows of calls go the same way as far as both go. -/
theorem linear (h : l.Delivers ts m) (h' : l.Delivers us n) :
    (∃ vs, us = ts ++ vs ∧ m.Delivers vs n) ∨ ∃ vs, ts = us ++ vs ∧ n.Delivers vs m := by
  induction h generalizing us with
  | nil => exact .inl ⟨us, rfl, h'⟩
  | cons hnext ht hrest ih =>
      cases h' with
      | nil => exact .inr ⟨_, rfl, .cons hnext ht hrest⟩
      | cons hnext' _ hrest' =>
          obtain ⟨ht', rfl⟩ := Prod.mk.inj (hnext.symm.trans hnext')
          obtain rfl := Except.ok.inj ht'
          obtain ⟨vs, rfl, hvs⟩ | ⟨vs, rfl, hvs⟩ := ih hrest'
          · exact .inl ⟨vs, rfl, hvs⟩
          · exact .inr ⟨vs, rfl, hvs⟩

/-- The tokens are ahead of the first lexer, and the second one is further on than all of them. -/
theorem location_bounds {c : Cursor} (h : (ofCursor c).Delivers ts m) :
    ∃ d, m = ofCursor d ∧ c.location ≤ d.location ∧ ∀ t ∈ ts, t.location < d.location := by
  generalize hl : ofCursor c = l at h
  induction h generalizing c with
  | nil => exact ⟨c, hl.symm, Location.le_refl _, by simp⟩
  | cons hnext ht _ ih =>
      subst hl
      obtain ⟨behind, hread, rfl⟩ := exists_of_next_token hnext ht
      obtain ⟨d, rfl, hbehind, hlt⟩ := ih rfl
      obtain ⟨hfrom, hto, -⟩ := Cursor.location_of_read_token hread
      have hlast := Location.lt_of_lt_of_le hto hbehind
      refine ⟨d, rfl, Location.le_trans hfrom (Location.le_of_lt hlast), ?_⟩
      rw [List.forall_mem_cons]
      exact ⟨hlast, hlt⟩

/-- The tokens in front of a token are determined by it. -/
theorem unique_of_next {c : Cursor} {t : Token} (h : (ofCursor c).Delivers ts m)
    (h' : (ofCursor c).Delivers us n) (ht : m.next.1 = .ok t) (ht' : n.next.1 = .ok t) :
    ts = us ∧ m = n := by
  -- between two places of the token the lexer would go on, but the second place would be the first
  have hstay : ∀ {ts vs : List Token} {m n : Lexer}, (ofCursor c).Delivers ts m →
      m.Delivers vs n → m.next.1 = .ok t → n.next.1 = .ok t → vs = [] ∧ m = n := by
    intro ts vs m n hm hn ht ht'
    obtain ⟨d, rfl, -, -⟩ := hm.location_bounds
    obtain ⟨d', rfl, -, hlt⟩ := hn.location_bounds
    cases hn with
    | nil => exact ⟨rfl, rfl⟩
    | @cons _ _ _ u _ hnext hu _ =>
        obtain rfl : t = u := by
          rw [hnext] at ht
          exact (Except.ok.inj ht).symm
        obtain ⟨behind, hread, -⟩ := exists_of_next_token (Prod.ext ht' rfl) hu
        have hback := (Cursor.location_of_read_token hread).1
        have hforth := hlt t (List.mem_cons_self ..)
        exact absurd (Location.lt_of_lt_of_le hforth hback) (Location.lt_irrefl _)
  obtain ⟨vs, rfl, hvs⟩ | ⟨vs, rfl, hvs⟩ := h.linear h'
  · obtain ⟨rfl, rfl⟩ := hstay h hvs ht ht'
    exact ⟨(List.append_nil ts).symm, rfl⟩
  · obtain ⟨rfl, rfl⟩ := hstay h' hvs ht' ht
    exact ⟨List.append_nil us, rfl⟩

end Delivers

/-- What stands in front of the stream is delivered. -/
theorem exists_delivers {c : Cursor} {s : TokenStream} {ts : List Token}
    (h : TokenStream.ofCursor c = s.prepend ts) :
    ∃ d, (ofCursor c).Delivers ts (ofCursor d) ∧ TokenStream.ofCursor d = s := by
  induction ts generalizing c with
  | nil => exact ⟨c, .nil, h⟩
  | cons t ts ih =>
      obtain ⟨ht, -⟩ := List.forall_mem_cons.mp (TokenStream.isEof_of_ofCursor h)
      obtain ⟨hfound, c', hc', htail⟩ := next_ofCursor c
      rw [h] at hfound htail
      obtain ⟨d, hd, hs⟩ := ih htail
      exact ⟨d, .cons (Prod.ext hfound hc') ht hd, hs⟩

/-- Every lexer comes to the end of the text, or to what cannot be read. -/
theorem exists_deliversAll (c : Cursor) : ∃ ts l', (ofCursor c).DeliversAll ts l' := by
  obtain ⟨ts, r, hstream, hr⟩ := (TokenStream.ofCursor c).exists_prepend
  obtain ⟨d, hd, rfl⟩ := exists_delivers hstream
  refine ⟨ts, ofCursor d, hd, fun t ht => ?_⟩
  rw [next_fst (sound_ofCursor d)] at ht
  cases heof : t.isEof with
  | true => rfl
  | false => exact absurd (TokenStream.eq_token_of_head ht heof) (hr t _)

end Lexer

end ExprLang
