import ExprLang.Parser.Program

set_option autoImplicit false

/-! # Successful outcomes

What it takes for a production to succeed, step by step. `Outcome.Yields x a r` says that the
outcome `x` is the result `a` with the stream `r` left. A sequence yields what its last step
yields after all steps before it (`Outcome.yields_andThen`), and each of the steps that take or
look at one token has an equation here, so that a production is opened by rewriting with them.
-/

namespace ExprLang

namespace Outcome

variable {α β : Type} {m n : Nat}

/-- The outcome is the result `a`, and `r` is left. -/
def Yields (x : Outcome α n) (a : α) (r : TokenStream) : Prop := x.result = .ok a ∧ x.rest = r

@[simp] theorem yields_ok {a b : α} {r t : TokenStream} {h : r.size < n} {log : Log} :
    (Outcome.ok a r h log).Yields b t ↔ a = b ∧ r = t := by
  simp [Yields, result, rest]

@[simp] theorem yields_fail {e : ParseError} {r t : TokenStream} {log : Log} {a : α} :
    (Outcome.fail e r log : Outcome α n).Yields a t ↔ False := by
  simp [Yields, result]

@[simp] theorem yields_preceded {before : Log} {x : Outcome α n} {a : α} {r : TokenStream} :
    (x.preceded before).Yields a r ↔ x.Yields a r := by
  simp [Yields]

@[simp] theorem yields_widen {le : m ≤ n} {x : Outcome α m} {a : α} {r : TokenStream} :
    (x.widen le).Yields a r ↔ x.Yields a r := by
  simp [Yields]

/-- What is left after a success is within the bound. -/
theorem Yields.size_lt {x : Outcome α n} {a : α} {r : TokenStream} (h : x.Yields a r) :
    r.size < n := by
  obtain ⟨hresult, hrest⟩ := h
  rw [← hrest]
  exact rest_size_lt_of_result hresult

/-- An outcome yields one result. -/
theorem Yields.unique {x : Outcome α n} {a b : α} {r t : TokenStream} (h : x.Yields a r)
    (h' : x.Yields b t) : a = b ∧ r = t :=
  ⟨Except.ok.inj (h.1.symm.trans h'.1), h.2.symm.trans h'.2⟩

/-- A sequence succeeds through an intermediate result and an intermediate stream. -/
theorem yields_andThen {x : Outcome α m} {f : α → (r : TokenStream) → r.size < m → Outcome β n}
    {b : β} {t : TokenStream} :
    (x.andThen f).Yields b t ↔
      ∃ (a : α) (r : TokenStream) (h : x.Yields a r), (f a r h.size_lt).Yields b t := by
  cases x with
  | ok a r h log =>
      constructor
      · intro hf
        exact ⟨a, r, yields_ok.mpr ⟨rfl, rfl⟩, by simpa using hf⟩
      · rintro ⟨a', r', hx, hf⟩
        obtain ⟨rfl, rfl⟩ := yields_ok.mp hx
        simpa using hf
  | fail e r log =>
      constructor
      · intro hf
        exact absurd hf (by simp)
      · rintro ⟨_, _, hx, _⟩
        exact absurd hx (by simp)

/-- What follows a step only has to agree on what the step yields. -/
theorem andThen_congr {x : Outcome α m}
    {f g : α → (r : TokenStream) → r.size < m → Outcome β n}
    (h : ∀ a r (hx : x.Yields a r), f a r hx.size_lt = g a r hx.size_lt) :
    x.andThen f = x.andThen g := by
  cases x with
  | ok a r hr log => rw [andThen_ok, andThen_ok, h a r (yields_ok.mpr ⟨rfl, rfl⟩)]
  | fail e r log => rfl

end Outcome

namespace Parser

variable {α : Type} {n : Nat}

theorem yields_look {s : TokenStream} {decide : Token → Outcome α n} {a : α} {r : TokenStream} :
    (look s decide).Yields a r ↔ ∃ t, s.head = .ok t ∧ (decide t).Yields a r := by
  unfold look
  cases hhead : s.head with
  | ok t => simp
  | error e => simp

theorem yields_require {test : Token → Bool} {kind : Token.Kind} {value : String}
    {s r : TokenStream} {t : Token} :
    (require test kind value s).Yields t r ↔ s = .token t r ∧ test t = true := by
  cases s with
  | token u rest =>
      by_cases hu : test u = true
      · simp only [require, hu, if_true, Outcome.Yields, Outcome.result, Outcome.rest,
          Except.ok.injEq, TokenStream.token.injEq]
        constructor
        · rintro ⟨rfl, rfl⟩
          exact ⟨⟨rfl, rfl⟩, hu⟩
        · rintro ⟨h, -⟩
          exact h
      · simp only [require, hu, Outcome.Yields]
        constructor
        · rintro ⟨h, -⟩
          cases h
        · rintro ⟨h, ht⟩
          cases h
          exact absurd ht hu
  | fault e rest => simp [require]
  | stuck x l => simp [require]
  | ending l => simp [require]

theorem yields_expect {kind : Token.Kind} {value : String} {s r : TokenStream} {t : Token} :
    (expect kind value s).Yields t r ↔ s = .token t r ∧ t.is kind value = true :=
  yields_require

theorem yields_identifier {s r : TokenStream} {t : Token} :
    (identifier s).Yields t r ↔ s = .token t r ∧ t.kind = .identifier := by
  simp [identifier, yields_require]

theorem yields_operand {s r : TokenStream} {e : Tree} :
    (operand s).Yields e r ↔ ∃ t, s = .token t r ∧ t.operand = .ok e := by
  cases s with
  | token t rest =>
      cases hoperand : t.operand with
      | ok tree =>
          simp only [operand, hoperand, Outcome.Yields, Outcome.result, Outcome.rest,
            Except.ok.injEq, TokenStream.token.injEq]
          constructor
          · rintro ⟨rfl, rfl⟩
            exact ⟨t, ⟨rfl, rfl⟩, hoperand⟩
          · rintro ⟨u, ⟨rfl, rfl⟩, hu⟩
            rw [hoperand] at hu
            exact ⟨Except.ok.inj hu, rfl⟩
      | error e' =>
          simp only [operand, hoperand, Outcome.yields_fail, TokenStream.token.injEq, false_iff]
          rintro ⟨u, ⟨rfl, -⟩, hu⟩
          rw [hoperand] at hu
          cases hu
  | fault e' rest => simp [operand]
  | stuck x l => simp [operand]
  | ending l => simp [operand]

theorem yields_close {b : Bracketing} {s r : TokenStream} {xs : List Tree} :
    (close b s).Yields xs r ↔
      xs = [] ∧ ∃ t, s = .token t r ∧ t.isPunctuation b.closing = true := by
  simp only [close, Outcome.yields_andThen, yields_expect, Outcome.yields_ok]
  constructor
  · rintro ⟨t, _, ⟨rfl, ht⟩, rfl, rfl⟩
    exact ⟨rfl, t, rfl, ht⟩
  · rintro ⟨rfl, t, rfl, ht⟩
    exact ⟨t, r, ⟨rfl, ht⟩, rfl, rfl⟩

end Parser

end ExprLang
