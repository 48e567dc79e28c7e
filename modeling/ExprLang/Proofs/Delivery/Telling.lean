import ExprLang.Proofs.LookAhead
import ExprLang.Proofs.Stream

set_option autoImplicit false

/-! # What a lexer tells

A lexer tells a token when it reads it off the text. What was looked at has been told, and is not
told again when it is looked at once more or taken (`Lexer.told`). So what a call tells, behind what
has been told before, is the token that it answers, and a failure tells nothing
(`Lexer.told_append_log`).

Taking all tokens one by one answers what `tokenize` does and tells the account of the stream
(`Lexer.answer_tellTokenize`, `Lexer.Reads.log_tellTokenize`).
-/

namespace ExprLang

namespace TokenStream

variable {r : TokenStream} {u : Token} {e : LexError}

theorem readable_prepend (r : TokenStream) (ts : List Token) :
    (r.prepend ts).readable = ts ++ r.readable := by
  induction ts with
  | nil => rfl
  | cons t ts ih => rw [prepend_cons, readable, ih, List.cons_append]

theorem readable_of_head_error (h : r.head = .error e) : r.readable = [] := by
  cases r with
  | token t rest => cases h
  | fault e rest => rfl
  | stuck x l => rfl
  | ending l => cases h

theorem exists_readable_of_head (h : r.head = .ok u) : ∃ us, r.readable = u :: us := by
  cases r with
  | token t rest => cases h; exact ⟨_, rfl⟩
  | fault e rest => cases h
  | stuck x l => cases h
  | ending l => cases h; exact ⟨_, rfl⟩

end TokenStream

namespace Lexer

variable {l l' : Lexer} {s : TokenStream} {t : Token} {e : LexError}

/-! ## Told before -/

/-- What has been told of what is ahead: the token that was looked at. -/
def told (l : Lexer) : Log :=
  match l.ahead with
  | some t => [.read t]
  | none => []

@[simp] theorem told_ofCursor (c : Cursor) : (ofCursor c).told = [] := rfl

theorem told_of_ahead (h : l.ahead = some t) : l.told = [.read t] := by
  rw [told, h]

/-- The stream is all that the lexer will deliver. -/
def Reads (l : Lexer) (s : TokenStream) : Prop := l.Sound ∧ l.stream = s

theorem reads_ofCursor (c : Cursor) : (ofCursor c).Reads (.ofCursor c) := ⟨sound_ofCursor c, rfl⟩

/-- What is answered is told, once. -/
theorem told_append_log (l : Lexer) :
    l.told ++ l.tellNext.log =
      match l.next.1 with
      | .ok t => [.read t]
      | .error _ => [] := by
  obtain ⟨c, ahead⟩ := l
  cases ahead with
  | some t => rfl
  | none =>
      simp only [told, next, tellNext, List.nil_append]
      cases c.read <;> rfl

namespace Reads

/-- The token in front of the stream is taken, and told unless it has been. -/
theorem tellNext_eq (h : l.Reads s) (ht : s.head = .ok t) :
    ∃ c log, l.tellNext = ⟨(.ok t, ofCursor c), log⟩ ∧ (ofCursor c).Reads s.tail ∧
      l.told ++ log = [.read t] := by
  obtain ⟨hsound, rfl⟩ := h
  obtain ⟨hfound, c, hleft, hstream⟩ := next_spec hsound
  rw [ht] at hfound
  have hlog := told_append_log l
  rw [hfound] at hlog
  exact ⟨c, _, congrArg (Told.mk · _) (Prod.ext hfound hleft), ⟨sound_ofCursor c, hstream⟩, hlog⟩

/-- A failure to take a token tells nothing. -/
theorem tellNext_eq_error (h : l.Reads s) (he : s.head = .error e) :
    ∃ c, l.tellNext = ⟨(.error e, ofCursor c), []⟩ ∧ (ofCursor c).Reads s.tail ∧
      l.told = [] := by
  obtain ⟨hsound, rfl⟩ := h
  obtain ⟨hfound, c, hleft, hstream⟩ := next_spec hsound
  rw [he] at hfound
  have hlog := told_append_log l
  rw [hfound] at hlog
  obtain ⟨htold, hnil⟩ := List.append_eq_nil_iff.mp hlog
  have hnext : l.tellNext = ⟨l.next, l.tellNext.log⟩ := rfl
  refine ⟨c, ?_, ⟨sound_ofCursor c, hstream⟩, htold⟩
  rw [hnext, hnil, ← hfound, ← hleft]

/-- The token in front of the stream is looked at and kept, and told unless it has been. -/
theorem tellPeek_eq (h : l.Reads s) (ht : s.head = .ok t) :
    ∃ l' log, l.tellPeek = ⟨(.ok t, l'), log⟩ ∧ l'.Reads s ∧ l'.ahead = some t ∧
      l.told ++ log = l'.told := by
  obtain ⟨c, log, hnext, -, htold⟩ := h.tellNext_eq ht
  obtain ⟨hsound, rfl⟩ := h
  obtain ⟨-, hkept, hstream⟩ := peek_of_head_eq_ok hsound ht
  have hpeek : l.tellPeek = ⟨(.ok t, ⟨c, some t⟩), log⟩ := by
    rw [tellPeek, hnext]
    rfl
  rw [peek, hpeek] at hkept hstream
  exact ⟨_, _, hpeek, ⟨hkept, hstream⟩, rfl, htold⟩

/-- A failure to look at a token tells nothing. -/
theorem tellPeek_eq_error (h : l.Reads s) (he : s.head = .error e) :
    ∃ l', l.tellPeek = ⟨(.error e, l'), []⟩ ∧ l'.Reads s.tail ∧ l.told = [] := by
  obtain ⟨c, hnext, hreads, htold⟩ := h.tellNext_eq_error he
  refine ⟨ofCursor c, ?_, hreads, htold⟩
  rw [tellPeek, hnext]
  rfl

end Reads

/-- The token that was looked at is found again, and nothing is told. -/
theorem tellPeek_of_ahead (h : l.ahead = some t) : l.tellPeek = ⟨(.ok t, l), []⟩ := by
  obtain ⟨c, ahead⟩ := l
  cases h
  rfl

/-! ## All tokens -/

theorem tokenize_of_next_error (h : l.next = (.error e, l')) : l.tokenize = (.error e, l') := by
  obtain ⟨c, ahead⟩ := l
  cases ahead with
  | some t => rw [next_of_ahead rfl] at h; cases h
  | none =>
      rw [next_of_ahead_eq_none rfl] at h
      simp only [tokenize]
      rw [drain]
      split <;> rename_i hread <;> simp only [hread] at h <;> cases h <;> rfl

theorem tokenize_of_next_eof (h : l.next = (.ok t, l')) (ht : t.isEof = true) :
    l.tokenize = (.ok [t], l') := by
  obtain ⟨c, ahead⟩ := l
  cases ahead with
  | some u =>
      rw [next_of_ahead rfl] at h
      cases h
      simp only [tokenize, ht, if_true]
      rfl
  | none =>
      rw [next_of_ahead_eq_none rfl] at h
      cases hread : c.read with
      | token u behind =>
          simp only [hread] at h
          cases h
          rw [(Cursor.location_of_read_token hread).2.2] at ht
          cases ht
      | ending last =>
          simp only [hread] at h
          cases h
          simp only [tokenize, drain_of_ending hread]
          rfl
      | fault e behind => simp only [hread] at h; cases h
      | stuck x before => simp only [hread] at h; cases h

theorem tokenize_of_next (h : l.next = (.ok t, l')) (ht : t.isEof = false) :
    l.tokenize = match l'.tokenize with
      | (.ok ts, last) => (.ok (t :: ts), last)
      | (.error e, last) => (.error e, last) := by
  obtain ⟨c, ahead⟩ := l
  cases ahead with
  | some u =>
      rw [next_of_ahead rfl] at h
      cases h
      simp only [tokenize, ht, Bool.false_eq_true, if_false, ofCursor]
      cases drain c with
      | mk found last => cases found <;> rfl
  | none =>
      obtain ⟨behind, hread, rfl⟩ := exists_of_next_token h ht
      simp only [tokenize, drain_of_token hread, ofCursor]
      cases drain behind with
      | mk found last => cases found <;> rfl

/-- Taking the tokens one by one answers what taking them all does. -/
theorem answer_tellTokenize (l : Lexer) : l.tellTokenize.answer = l.tokenize := by
  fun_induction tellTokenize l with
  | case1 l e l' log hnext => exact (tokenize_of_next_error (congrArg Told.answer hnext)).symm
  | case2 l t l' log hnext ht => exact (tokenize_of_next_eof (congrArg Told.answer hnext) ht).symm
  | case3 l t l' log hnext ht ts last log' hrest ih =>
      rw [tokenize_of_next (congrArg Told.answer hnext) (Bool.eq_false_iff.mpr ht), ← ih, hrest]
  | case4 l t l' log hnext ht e last log' hrest ih =>
      rw [tokenize_of_next (congrArg Told.answer hnext) (Bool.eq_false_iff.mpr ht), ← ih, hrest]

/-- What is taken is in front of the stream. -/
theorem Reads.head_eq {found : Except LexError Token} {log : Log} (h : l.Reads s)
    (hnext : l.tellNext = ⟨(found, l'), log⟩) : s.head = found := by
  rw [← h.2, ← next_fst h.1]
  exact congrArg (·.answer.1) hnext

/-- What follows a token that is taken is told behind it. -/
theorem Reads.told_append_log {log log' : Log} (h : l.Reads s)
    (hnext : l.tellNext = ⟨(.ok t, l'), log⟩) (ht : t.isEof = false)
    (hrest : ∀ r, l'.Reads r → l'.told ++ log' = r.log) : l.told ++ (log ++ log') = s.log := by
  have hhead := h.head_eq hnext
  obtain ⟨c, log₁, hnext', hreads, htold⟩ := h.tellNext_eq hhead
  obtain ⟨hanswer, rfl⟩ := Told.mk.inj (hnext.symm.trans hnext')
  obtain rfl : l' = ofCursor c := congrArg Prod.snd hanswer
  have hs : s = .token t s.tail := TokenStream.eq_token_of_head hhead ht
  calc l.told ++ (log ++ log') = [.read t] ++ log' := by rw [← List.append_assoc, htold]
    _ = [.read t] ++ s.tail.log := by rw [← hrest _ hreads, told_ofCursor, List.nil_append]
    _ = s.log := by rw [hs]; rfl

/-- Taking all tokens tells each token that can be read, and the end if it is reached, except what
has been told. -/
theorem Reads.log_tellTokenize (h : l.Reads s) : l.told ++ l.tellTokenize.log = s.log := by
  fun_induction tellTokenize l generalizing s with
  | case1 l e l' log hnext =>
      have hhead := h.head_eq hnext
      obtain ⟨c, hnext', -, htold⟩ := h.tellNext_eq_error hhead
      obtain ⟨-, rfl⟩ := Told.mk.inj (hnext.symm.trans hnext')
      rw [TokenStream.log, TokenStream.readable_of_head_error hhead, htold]
      rfl
  | case2 l t l' log hnext ht =>
      have hhead := h.head_eq hnext
      obtain ⟨c, log₁, hnext', -, htold⟩ := h.tellNext_eq hhead
      obtain ⟨-, rfl⟩ := Told.mk.inj (hnext.symm.trans hnext')
      obtain ⟨hsound, rfl⟩ := h
      have hending : l.stream = .ending t.location := stream_of_head_eof hsound hhead ht
      rw [hending] at hhead ⊢
      rw [htold, ← Except.ok.inj hhead]
      rfl
  | case3 l t l' log hnext ht ts last log' hrest ih =>
      refine h.told_append_log hnext (Bool.eq_false_iff.mpr ht) fun r hr => ?_
      rw [← ih hr, hrest]
  | case4 l t l' log hnext ht e last log' hrest ih =>
      refine h.told_append_log hnext (Bool.eq_false_iff.mpr ht) fun r hr => ?_
      rw [← ih hr, hrest]

end Lexer

end ExprLang
