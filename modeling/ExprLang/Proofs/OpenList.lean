import ExprLang.Proofs.Agenda.Prefix
import ExprLang.Proofs.Grammar.Parts
import ExprLang.Proofs.ViablePrefix

set_option autoImplicit false

/-! # Lists that are not closed

What the parser reports when the input ends inside a list. Behind the opening bracket and behind an
element it misses the closing bracket, but behind a separator it does not: there it asks for an
element, and it is the first token of an element that it misses (`Bracketing.missing`).

The agenda to which the tokens of a cut list lead reads all endings that the grammar has for them
(`exists_takes_of_derives`). That the closing bracket is one of them shows what is left of the list
on the agenda, and so what the agenda comes to at the end of the input.

`parse_of_cut` says this for every list in every program.
-/

namespace ExprLang

open Agenda

/-! ## Tokens behind elements -/

namespace Token

/-- The token closes a list or separates its elements. -/
def EndsElement (u : Token) : Prop :=
  ∃ b : Bracketing, u.terminal = b.closeTerminal ∨ u.terminal = b.separatorTerminal

theorem EndsElement.eq {u : Token} (h : u.EndsElement) :
    ∃ l, u = ⟨.punctuation, ")", l⟩ ∨ u = ⟨.punctuation, "\x7d", l⟩ ∨
      u = ⟨.punctuation, ",", l⟩ ∨ u = ⟨.punctuation, ";", l⟩ := by
  obtain ⟨kind, value, l⟩ := u
  obtain ⟨b, h | h⟩ := h
  · cases b <;> cases h <;> exact ⟨l, by simp⟩
  · cases b <;> cases h <;> exact ⟨l, by simp⟩

theorem EndsElement.isEof {u : Token} (h : u.EndsElement) : u.isEof = false := by
  obtain ⟨l, rfl | rfl | rfl | rfl⟩ := h.eq <;> rfl

end Token

namespace Run

variable {gs hs plan : Agenda} {g : Goal} {d : Demand} {u : Token} {ts : List Token}
  {s : TokenStream}

theorem of_plan (h : Run (g :: gs) (u :: ts) hs s) (hplan : g.plan u = some plan) :
    Run (plan ++ gs) (u :: ts) hs s := by
  cases h with
  | plan hhead hplan' hrun =>
      cases hhead
      rw [hplan] at hplan'
      cases hplan'
      exact hrun
  | take => cases hplan

theorem of_demand (h : Run (.demand d :: gs) (u :: ts) hs s) :
    d.refusal u = none ∧ Run gs ts hs s := by
  cases h with
  | plan _ hplan _ => cases hplan
  | take hmet hrun => exact ⟨hmet, hrun⟩

/-- No expression begins with a token that ends an element. -/
theorem not_primary (hu : u.EndsElement) : ¬Run (.primary :: gs) (u :: ts) hs s := by
  intro h
  obtain ⟨l, rfl | rfl | rfl | rfl⟩ := hu.eq <;> cases (h.of_plan rfl).of_demand.1

theorem not_variableBody (hu : u.EndsElement) : ¬Run (variableBody ++ gs) (u :: ts) hs s := by
  intro h
  obtain ⟨l, rfl | rfl | rfl | rfl⟩ := hu.eq <;> cases h.of_demand.1

/-- No element begins with a token that ends one. -/
theorem not_element (b : Bracketing) (hu : u.EndsElement) :
    ¬Run (element b ++ gs) (u :: ts) hs s := by
  cases b with
  | arguments => exact not_primary hu
  | parameters =>
      intro h
      have hbody : Run (variableBody ++ gs) (u :: ts) hs s := by
        obtain ⟨l, rfl | rfl | rfl | rfl⟩ := hu.eq <;> exact h.of_plan rfl
      exact not_variableBody hu hbody
  | block => exact not_primary hu

end Run

/-! ## What is left of a list -/

namespace Bracketing

variable {b : Bracketing}

theorem closeTerminal_ne_separatorTerminal (b b' : Bracketing) :
    b.closeTerminal ≠ b'.separatorTerminal := by
  cases b <;> cases b' <;> decide

/-- What the parser reports when the input ends at such a place of a list: it misses the closing
bracket, or the first token of an element. -/
def missing (b : Bracketing) (place : Place) (t : Token) : SyntaxError :=
  match place, b with
  | .separator, .parameters => .expectedToken t .identifier ""
  | .separator, _ => .unexpectedToken t
  | _, _ => .expectedToken t .punctuation b.closing

/-- The closing bracket is missed everywhere but behind a separator. -/
theorem missing_eq_iff {place : Place} {t : Token} :
    b.missing place t = .expectedToken t .punctuation b.closing ↔ place ≠ .separator := by
  cases place <;> cases b <;> simp [missing]

end Bracketing

/-- At the end of the input the agenda fails with this error. -/
def Agenda.Stops (gs : Agenda) (l : Location) (e : SyntaxError) : Prop :=
  ∃ g hs r, Run gs [] (g :: hs) (.ending l) ∧ g.Fails (.ending l) (.syntactic e) r

namespace Agenda

variable {b : Bracketing} {gs hs ks : Agenda} {u : Token} {ts : List Token} {s : TokenStream}
  {l : Location}

theorem Stops.plan {g : Goal} {e : SyntaxError} (h : (ks ++ gs).Stops l e)
    (hplan : g.plan (.eof l) = some ks) : Stops (g :: gs) l e := by
  obtain ⟨g', hs, r, hrun, hfails⟩ := h
  exact ⟨g', hs, r, .plan rfl hplan hrun, hfails⟩

theorem stops_demand {d : Demand} {e : SyntaxError} (h : d.refusal (.eof l) = some e) :
    Stops (.demand d :: gs) l e :=
  ⟨_, gs, _, .done, .refused rfl h⟩

theorem stops_close (b : Bracketing) (gs : Agenda) (l : Location) :
    Stops (close b ++ gs) l (.expectedToken (.eof l) .punctuation b.closing) :=
  stops_demand rfl

/-- The plans of goals that are over, or have not begun, when an element ends. -/
theorem plan_of_endsElement (hu : u.EndsElement) :
    Goal.links.plan u = some [] ∧ Goal.application.plan u = some [] ∧
      Goal.value.plan u = some [] ∧ Goal.parameter.plan u = some variableBody ∧
      Goal.statements.plan u =
        some (expression ++ [.demand (.exactly .punctuation ";"), .statements]) := by
  obtain ⟨l, rfl | rfl | rfl | rfl⟩ := hu.eq <;> exact ⟨rfl, rfl, rfl, rfl, rfl⟩

/-- A list that goes on with a token that ends elements is closed by it, unless the token may be its
separator. -/
theorem isPunctuation_of_items (hu : u.EndsElement) (h : Run (.items b :: gs) (u :: ts) hs s) :
    u.isPunctuation b.closing = true := by
  by_contra hclose
  have hplan : Goal.plan u (.items b) = some (element b ++ [.moreItems b]) := by
    simp [Goal.plan, hu.isEof, hclose]
  have hrun := h.of_plan hplan
  rw [List.append_assoc] at hrun
  exact Run.not_element b hu hrun

theorem isPunctuation_of_nextItem (hu : u.EndsElement)
    (h : Run (.nextItem b :: gs) (u :: ts) hs s) : u.isPunctuation b.closing = true := by
  by_contra hclose
  have hplan : Goal.plan u (.nextItem b) = some (element b ++ [.moreItems b]) := by
    simp [Goal.plan, hclose]
  have hrun := h.of_plan hplan
  rw [List.append_assoc] at hrun
  exact Run.not_element b hu hrun

theorem isPunctuation_of_moreItems {b' : Bracketing} (hu : u.terminal = b'.closeTerminal)
    (h : Run (.moreItems b :: gs) (u :: ts) hs s) : u.isPunctuation b.closing = true := by
  by_contra hclose
  have heof : u.isEof = false := Token.EndsElement.isEof ⟨b', .inl hu⟩
  have hplan : Goal.plan u (.moreItems b) =
      some [.demand (.exactly .punctuation b.separator), .nextItem b] := by
    simp [Goal.plan, heof, hclose]
  have hmeets := Demand.meets_of_refusal (h.of_plan hplan).of_demand.1
  rw [hu] at hmeets
  exact absurd hmeets (Bracketing.closeTerminal_ne_separatorTerminal b' b)

theorem closing_eq {b' : Bracketing} (hu : u.terminal = b.closeTerminal)
    (h : u.isPunctuation b'.closing = true) : b'.closing = b.closing :=
  (Prod.mk.inj ((Token.terminal_eq_of_is h).symm.trans hu)).2

/-- An agenda that closes a list next, and is not behind a separator, misses the closing bracket at
the end of the input. -/
theorem stops_of_closing (hgs : gs.Ordered) (hhead : ∀ g ∈ gs.head?, g.isNextItem = false)
    (hu : u.terminal = b.closeTerminal) (h : Run gs (u :: ts) hs s) :
    gs.Stops l (.expectedToken (.eof l) .punctuation b.closing) := by
  have hends : u.EndsElement := ⟨b, .inl hu⟩
  obtain ⟨hlinks, happlication, hvalue, hparameter, hstatements⟩ := plan_of_endsElement hends
  induction gs with
  | nil => cases h
  | cons g gs ih =>
      -- what may be left out is left out for the closing bracket and for the end alike
      have hskip : g.isSeparator = false → g.plan u = some [] → g.plan (.eof l) = some [] →
          Stops (g :: gs) l (.expectedToken (.eof l) .punctuation b.closing) := by
        intro hg hplan heof
        have hrest : Stops ([] ++ gs) l (.expectedToken (.eof l) .punctuation b.closing) :=
          ih hgs.tail (hgs.isNextItem_eq_false hg) (h.of_plan hplan)
        exact hrest.plan heof
      cases g with
      | demand d =>
          have hmeets := Demand.meets_of_refusal h.of_demand.1
          rw [hu] at hmeets
          cases d with
          | exactly kind value =>
              cases (hmeets : b.closeTerminal = (kind, value))
              exact stops_close b gs l
          | identifier =>
              obtain ⟨name, hname⟩ := hmeets
              cases hname
          | operand => cases b <;> cases hmeets
      | statements => exact absurd (h.of_plan hstatements) (Run.not_primary hends)
      | links => exact hskip rfl hlinks rfl
      | application => exact hskip rfl happlication rfl
      | primary => exact absurd h (Run.not_primary hends)
      | definition =>
          have hmeets := Demand.meets_of_refusal (h.of_plan rfl).of_demand.1
          rw [hu] at hmeets
          cases hmeets
      | parameter => exact absurd (h.of_plan hparameter) (Run.not_variableBody hends)
      | value => exact hskip rfl hvalue rfl
      | items b' =>
          rw [← closing_eq hu (isPunctuation_of_items hends h)]
          exact (stops_close b' gs l).plan rfl
      | moreItems b' =>
          rw [← closing_eq hu (isPunctuation_of_moreItems hu h)]
          exact (stops_close b' gs l).plan rfl
      | nextItem b' => cases hhead _ rfl

/-! ## Behind a separator -/

/-- What begins a list is no separator. -/
theorem not_isSeparator_of_meets {d : Demand} (hd : d.Meets b.openTerminal) :
    (Goal.demand d).isSeparator = false := by
  cases d with
  | exactly kind value =>
      cases (hd : b.openTerminal = (kind, value))
      cases b <;> rfl
  | identifier => rfl
  | operand => rfl

theorem isSeparator_of_meets {d : Demand} (hd : d.Meets b.separatorTerminal) :
    (Goal.demand d).isSeparator = true := by
  cases d with
  | exactly kind value =>
      cases (hd : b.separatorTerminal = (kind, value))
      cases b <;> rfl
  | identifier =>
      obtain ⟨name, hname⟩ := hd
      cases hname
  | operand => cases b <;> cases hd

/-- Behind a separator the agenda goes on with a list, if it can close one. -/
theorem exists_nextItem {d : Demand} (hd : d.Meets b.separatorTerminal)
    (hgs : Ordered (.demand d :: gs)) (hu : u.terminal = b.closeTerminal)
    (h : Run gs (u :: ts) hs s) : ∃ b' ks, gs = .nextItem b' :: ks ∧ b'.closing = b.closing := by
  have hends : u.EndsElement := ⟨b, .inl hu⟩
  cases gs with
  | nil => cases h
  | cons g gs =>
      have hg := (List.isChain_cons_cons.mp hgs).1.2 (isSeparator_of_meets hd)
      cases g with
      | nextItem b' => exact ⟨b', gs, rfl, closing_eq hu (isPunctuation_of_nextItem hends h)⟩
      | statements =>
          exact absurd (h.of_plan (plan_of_endsElement hends).2.2.2.2) (Run.not_primary hends)
      | _ => simp at hg

/-- No parameter is a number. -/
theorem not_parameter_of_int (hu : u.kind = .int) :
    ¬Run (.nextItem .parameters :: gs) (u :: ts) hs s := by
  intro h
  obtain ⟨kind, value, m⟩ := u
  obtain rfl : kind = .int := hu
  have hparameter : Run (.parameter :: .moreItems .parameters :: gs) _ hs s := h.of_plan rfl
  have hname : Run (variableBody ++ .moreItems .parameters :: gs) _ hs s := hparameter.of_plan rfl
  cases hname.of_demand.1

/-- No argument is a name with its type. -/
theorem not_argument_of_variable {x colon : Token} (hx : x.kind = .identifier)
    (hcolon : colon.terminal = .operator ":") :
    ¬Run (.nextItem .arguments :: gs) (x :: colon :: ts) hs s := by
  intro h
  obtain ⟨kind, value, m⟩ := x
  obtain rfl : kind = .identifier := hx
  obtain ⟨kind, value', m'⟩ := colon
  cases hcolon
  -- behind the name there is neither a call nor an operator, and no separator either
  have hoperand := ((h.of_plan rfl).of_plan rfl).of_demand.2
  cases ((((hoperand.of_plan rfl).of_plan rfl).of_plan rfl).of_plan rfl).of_demand.1

/-- Behind a separator the agenda misses an element at the end of the input. -/
theorem stops_nextItem (b : Bracketing) (gs : Agenda) (l : Location) :
    Stops (.nextItem b :: gs) l (b.missing .separator (.eof l)) := by
  cases b with
  | arguments => exact Stops.plan (Stops.plan (stops_demand rfl) rfl) rfl
  | parameters => exact Stops.plan (Stops.plan (stops_demand rfl) rfl) rfl
  | block => exact Stops.plan (Stops.plan (stops_demand rfl) rfl) rfl

end Agenda

/-! ## Cut lists -/

theorem exists_of_word_concat {ts : List Token} {v : List Terminal} {x : Terminal}
    (h : word ts = v ++ [x]) : ∃ us u, ts = us ++ [u] ∧ u.terminal = x := by
  obtain ⟨us, u, vs, rfl, -, hu, hvs⟩ := exists_of_word_separated h
  obtain rfl := List.map_eq_nil_iff.mp hvs
  exact ⟨us, u, rfl, hu⟩

/-- Of two lists with the same brackets one has an element that the other has not: a number is no
parameter, and a name with its type is no argument. -/
theorem eq_of_reads {b b' : Bracketing} {gs : Agenda} {z : List Terminal}
    (hsame : b'.closing = b.closing)
    (hreads : ∀ y, b.Completes .separator y →
      Run (.nextItem b' :: gs) ((y ++ z).map Terminal.token) [] (.ending .start)) : b' = b := by
  have hnumber : Derives (.element .arguments) [(.int, "1")] :=
    .argument (.expression (.atom (.operand (.int (by decide))) .noArguments) .noLinks
      .noArguments)
  have hvariable : Derives (.element .parameters)
      [.identifier "x", .operator ":", .identifier "x"] :=
    .formal (.parameterVariable .variableAbsent)
  cases b with
  | arguments =>
      cases b' with
      | arguments => rfl
      | parameters =>
          exact absurd (hreads _ (.element nofun hnumber .closing)) (not_parameter_of_int rfl)
      | block => exact absurd hsame (by decide)
  | parameters =>
      cases b' with
      | arguments =>
          exact absurd (hreads _ (.element nofun hvariable .closing))
            (not_argument_of_variable rfl rfl)
      | parameters => rfl
      | block => exact absurd hsame (by decide)
  | block =>
      cases b' with
      | block => rfl
      | _ => exact absurd hsame (by decide)

/-- The tokens in front of a place lead to an agenda that reads every way to complete the list. -/
theorem exists_takes_of_begins {b : Bracketing} {place : Place} {v x z : List Terminal}
    {ts : List Token} (hlist : Phrase.Within (.list b) .statements v z) (hx : b.Begins place x)
    (hts : word ts = v ++ x) :
    ∃ ks, Takes [.statements] ts ks ∧ ∀ y, b.Completes place y →
      Run ks ((y ++ z).map Terminal.token) [] (.ending .start) := by
  have hderives : ∀ w, (∃ y, b.Completes place y ∧ w = y ++ z) →
      Derives .statements (word ts ++ w) := by
    rintro _ ⟨y, hy, rfl⟩
    rw [hts]
    simpa only [List.append_assoc] using hlist.derives (hx.derives hy)
  obtain ⟨ks, htakes, hreads⟩ := exists_takes_of_derives ⟨_, .closing, rfl⟩ hderives
  exact ⟨ks, htakes, fun y hy => hreads _ ⟨y, hy, word_map_token _⟩ .start⟩

/-- The tokens in front of a place lead to an agenda that misses there what the place asks for. -/
theorem stops_of_begins {b : Bracketing} {place : Place} {v x z : List Terminal} {ts : List Token}
    (hlist : Phrase.Within (.list b) .statements v z) (hx : b.Begins place x)
    (hts : word ts = v ++ x) (l : Location) :
    ∃ ks, Run [.statements] ts ks (.ending l) ∧ ks.Stops l (b.missing place (.eof l)) := by
  obtain ⟨ks, htakes, hreads⟩ := exists_takes_of_begins hlist hx hts
  have hclosing : Run ks (b.closeTerminal.token :: z.map Terminal.token) [] (.ending .start) :=
    hreads _ .closing
  have hstart : Ordered [.statements] := .singleton _
  refine ⟨ks, htakes.run _, ?_⟩
  cases hx with
  | opening =>
      -- the bracket was demanded, and a bracket is no separator
      obtain ⟨us, u, rfl, hu⟩ := exists_of_word_concat hts
      obtain ⟨d, hmet, hordered⟩ := htakes.exists_demand hstart
      have hbracket : (Goal.demand d).isSeparator = false :=
        not_isSeparator_of_meets (hu ▸ Demand.meets_of_refusal hmet)
      exact stops_of_closing hordered.tail (hordered.isNextItem_eq_false hbracket) rfl hclosing
  | element =>
      -- a separator may come next, which it may not behind another one
      refine stops_of_closing (htakes.ordered hstart) (fun g hg => ?_) rfl hclosing
      cases g with
      | nextItem b' =>
          obtain ⟨gs, rfl⟩ := List.head?_eq_some_iff.mp hg
          have hseparator : Run (.nextItem b' :: gs) (b.separatorTerminal.token ::
              ([b.closeTerminal] ++ z).map Terminal.token) [] (.ending .start) :=
            hreads _ (.separator .closing)
          have hclose := isPunctuation_of_nextItem ⟨b, .inr rfl⟩ hseparator
          exact absurd (Token.terminal_eq_of_is hclose).symm
            (Bracketing.closeTerminal_ne_separatorTerminal b' b)
      | _ => rfl
  | separator =>
      rw [← List.append_assoc] at hts
      obtain ⟨us, u, rfl, hu⟩ := exists_of_word_concat hts
      obtain ⟨d, hmet, hordered⟩ := htakes.exists_demand hstart
      obtain ⟨b', gs, rfl, hsame⟩ :=
        exists_nextItem (hu ▸ Demand.meets_of_refusal hmet) hordered rfl hclosing
      obtain rfl := eq_of_reads hsame hreads
      exact stops_nextItem b' gs l

/-- The source is a program, a list with these brackets stands in it, and `w` is what is in front of
such a place of the list. -/
def IsCutAt (source : String) (b : Bracketing) (place : Place) (w : List Terminal) : Prop :=
  ∃ t ts l v x y z, parse source = .ok t ∧ tokenize source = .ok (ts ++ [.eof l]) ∧
    word ts = v ++ ((x ++ y) ++ z) ∧ Phrase.Within (.list b) .statements v z ∧
    b.Begins place x ∧ b.Completes place y ∧ w = v ++ x

/-- The tokens of `f(a,`. -/
def callTokens : List Token :=
  [⟨.identifier, "f", ⟨1, 1⟩⟩, ⟨.punctuation, "(", ⟨1, 2⟩⟩, ⟨.identifier, "a", ⟨1, 3⟩⟩,
    ⟨.punctuation, ",", ⟨1, 4⟩⟩]

theorem tokenize_call : tokenize "f(a," = .ok (callTokens ++ [.eof ⟨1, 5⟩]) := by
  with_unfolding_all rfl

/-- The place behind the comma of `f(a,b);`. -/
theorem isCutAt_call : IsCutAt "f(a,b);" .arguments .separator
    [.identifier "f", .punctuation "(", .identifier "a", .punctuation ","] := by
  have hname : ∀ name, Derives .primary [.identifier name] := fun _ => .operand .identifier
  have hargument : ∀ name, Derives (.element .arguments) [.identifier name] := fun name =>
    .argument (.expression (.atom (hname name) .noArguments) .noLinks .noArguments)
  have hlist := Phrase.Within.inside (.statement .noStatements) (.inside
    (.firstAtom .noLinks .noArguments) (.inside (.atomApplication (hname "f"))
      (.inside .arguments .here)))
  have hbegins := Bracketing.Begins.separator
    (.element (by decide) .opening (hargument "a"))
  have hcompletes : Bracketing.arguments.Completes .separator
      [.identifier "b", .punctuation ")"] :=
    .element (by decide) (hargument "b") .closing
  let ts : List Token := callTokens ++ [⟨.identifier, "b", ⟨1, 5⟩⟩,
    ⟨.punctuation, ")", ⟨1, 6⟩⟩, ⟨.punctuation, ";", ⟨1, 7⟩⟩]
  have hparse : ∃ t, parse "f(a,b);" = .ok t := ⟨_, by with_unfolding_all rfl⟩
  have htokenize : tokenize "f(a,b);" = .ok (ts ++ [.eof ⟨1, 8⟩]) := by with_unfolding_all rfl
  obtain ⟨t, ht⟩ := hparse
  exact ⟨t, ts, ⟨1, 8⟩, _, _, _, _, ht, htokenize, rfl, hlist, hbegins, hcompletes, rfl⟩

/-- A source whose tokens are those of a program up to a place in a list is no program. The parser
misses the closing bracket of this list behind its opening bracket and behind its elements; behind a
separator, and only there, it misses the first token of an element instead. -/
theorem parse_of_cut {source : String} {b : Bracketing} {place : Place} {w : List Terminal}
    (h : IsCutAt source b place w) :
    (∃ cut ts l, tokenize cut = .ok (ts ++ [.eof l]) ∧ word ts = w) ∧
      ∀ cut ts l, tokenize cut = .ok (ts ++ [.eof l]) → word ts = w →
        parse cut = .error (.syntactic (b.missing place (.eof l))) ∧
        (parse cut = .error (.syntactic (.expectedToken (.eof l) .punctuation b.closing)) ↔
          place ≠ .separator) := by
  obtain ⟨t, ts, l, v, x, y, z, -, htokenize, hts, hlist, hx, -, rfl⟩ := h
  refine ⟨?_, fun cut us m hcut hus => ?_⟩
  · obtain ⟨ts', l', hsame, hstream⟩ := tokenize_eq_ok_iff_stream.mp htokenize
    obtain ⟨rfl, -⟩ := List.append_inj' hsame rfl
    have hwritable : ∀ a ∈ v ++ x, a.IsWritable := by
      intro a ha
      refine isWritable_of_ofCursor hstream a ?_
      rw [hts]
      simp only [List.mem_append] at ha ⊢
      exact ha.imp id fun hx => .inl (.inl hx)
    obtain ⟨cut, us, m, hcut, hus⟩ := exists_stream_of_isWritable hwritable
    exact ⟨cut, us, m, tokenize_eq_ok_iff_stream.mpr ⟨us, m, rfl, hcut⟩, hus⟩
  · obtain ⟨us', m', hsame, hstream⟩ := tokenize_eq_ok_iff_stream.mp hcut
    obtain ⟨rfl, hm⟩ := List.append_inj' hsame rfl
    cases hm
    obtain ⟨ks, hrun, g, gs, r, hstop, hfails⟩ := stops_of_begins hlist hx hus m
    have hall : Run [.statements] (us ++ []) (g :: gs) (.ending m) := Run.trans hrun hstop
    rw [List.append_nil] at hall
    have hparse : parse cut = .error (.syntactic (b.missing place (.eof m))) :=
      parse_eq_error_iff.mpr ⟨us, g, gs, .ending m, r, hstream, hall, hfails⟩
    refine ⟨hparse, ?_⟩
    rw [hparse, ← Bracketing.missing_eq_iff (t := .eof m)]
    exact ⟨fun h => ParseError.syntactic.inj (Except.error.inj h), fun h => by rw [h]⟩

/-- A call that is cut behind its comma. -/
theorem parse_of_cut_call :
    IsCutAt "f(a,b);" .arguments .separator
        [.identifier "f", .punctuation "(", .identifier "a", .punctuation ","] ∧
      parse "f(a," = .error (.syntactic (.unexpectedToken (.eof ⟨1, 5⟩))) := by
  obtain ⟨-, hcut⟩ := parse_of_cut isCutAt_call
  exact ⟨isCutAt_call, (hcut "f(a," callTokens ⟨1, 5⟩ tokenize_call rfl).1⟩

/-- Running out of input in a list is not always reported on its closing bracket. -/
theorem closing_not_always_missed :
    ¬∀ source b place w, IsCutAt source b place w →
      ∀ cut ts l, tokenize cut = .ok (ts ++ [.eof l]) → word ts = w →
        parse cut = .error (.syntactic (.expectedToken (.eof l) .punctuation b.closing)) := by
  intro h
  have hclosing := h _ _ _ _ isCutAt_call "f(a," callTokens ⟨1, 5⟩ tokenize_call rfl
  have hparse : parse "f(a," = .error (.syntactic (.unexpectedToken (.eof ⟨1, 5⟩))) := by
    with_unfolding_all rfl
  rw [hparse] at hclosing
  cases hclosing

end ExprLang
