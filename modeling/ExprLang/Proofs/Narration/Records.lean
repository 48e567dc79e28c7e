import ExprLang.Proofs.Agreement
import ExprLang.Proofs.Narration.Descent
import ExprLang.Proofs.PullParser

set_option autoImplicit false

/-! # What is recorded of a text

Each event is recorded with its level and its message. `tokenizeLog` is what a lexer tells when all
tokens of a text are taken off it, and `parseLog` is what a parser tells that takes its tokens off a
lexer. Both are told here by their records: a token and the end (`Record.lexed`, `Record.ended`),
the calls and the functions of a tree (`Tree.announcements`), and a complete program
(`Record.program`).

`log_tells_everything_once` is all of this in one statement.
-/

namespace ExprLang

open Lexer

/-! ## Records -/

/-- A level and a message. -/
abbrev Record := String × String

namespace Record

/-- A token that is not the end is read. -/
def lexed (u : Token) : Record :=
  ("TRACE", "lexed \x7b" ++ u.kind.name ++ ", '" ++ Text.escape u.value ++ "', (" ++
    toString u.location.line ++ ":" ++ toString u.location.column ++ ")\x7d")

/-- The end is read. -/
def ended (l : Location) : Record :=
  ("TRACE", "end of input at " ++ toString l.line ++ ":" ++ toString l.column)

/-- A call begins. -/
def call (l : Location) : Record :=
  ("TRACE", "parsing call at " ++ toString l.line ++ ":" ++ toString l.column)

/-- A function begins. -/
def function (name : String) (l : Location) : Record :=
  ("TRACE", "parsing function '" ++ name ++ "' at " ++ toString l.line ++ ":" ++ toString l.column)

/-- A program is complete. -/
def program (count : Nat) : Record :=
  ("DEBUG", "parsed program with " ++ toString count ++ " top-level statements")

end Record

namespace Event

theorem record_read {u : Token} (h : u.isEof = false) : (read u).record = Record.lexed u := by
  have hmessage : (read u).message = "lexed " ++ u.text := if_neg (by simp [h])
  have hopening : "lexed \x7b" = "lexed " ++ "\x7b" := rfl
  rw [record, hmessage, Record.lexed, level, Token.text, Location.text, hopening]
  simp only [String.append_assoc]

theorem record_eof (l : Location) : (read (.eof l)).record = Record.ended l := by
  show ("TRACE", "end of input at " ++ l.text) = _
  rw [Record.ended, Location.text, ← String.append_assoc, ← String.append_assoc]

theorem record_call (l : Location) : (call l).record = Record.call l := by
  show ("TRACE", "parsing call at " ++ l.text) = _
  rw [Record.call, Location.text, ← String.append_assoc, ← String.append_assoc]

theorem record_function (name : String) (l : Location) :
    (function name l).record = Record.function name l := by
  show ("TRACE", "parsing function '" ++ name ++ "' at " ++ l.text) = _
  rw [Record.function, Location.text, ← String.append_assoc, ← String.append_assoc]

end Event

namespace Log

variable {log log' : List Event}

/-- What is recorded of the events. -/
def records (log : List Event) : List Record := log.map Event.record

@[simp] theorem records_append : records (log ++ log') = records log ++ records log' :=
  List.map_append

@[simp] theorem records_cons (e : Event) (log : List Event) :
    records (e :: log) = e.record :: records log := rfl

/-- Only a complete program is not recorded as a step. -/
theorem IsOpen.level_eq (h : IsOpen log) : ∀ x ∈ records log, x.1 = "TRACE" := by
  intro x hx
  obtain ⟨e, he, rfl⟩ := List.mem_map.mp hx
  cases e with
  | program => cases h _ he
  | _ => rfl

theorem records_read {us : List Token} (h : ∀ u ∈ us, u.isEof = false) :
    records (us.map .read) = us.map Record.lexed := by
  rw [records, List.map_map]
  exact List.map_congr_left fun u hu => Event.record_read (h u hu)

end Log

/-! ## Calls and functions -/

namespace Tree

mutual

/-- The records of the calls and the functions of the tree, in the order in which they begin in the
text. -/
def announcements : Tree → List Record
  | .operation _ left right _ => left.announcements ++ right.announcements
  | .call callee arguments l => callee.announcements ++ Record.call l :: announcementsAll arguments
  | .definition _ _ _ value _ => value.announcements
  | .function name _ parameters body l =>
    Record.function name l :: (announcementsAll parameters ++ body.announcements)
  | .block statements _ => announcementsAll statements
  | _ => []

/-- The records of the calls and the functions of the trees of a list. -/
def announcementsAll : List Tree → List Record
  | [] => []
  | x :: xs => x.announcements ++ announcementsAll xs

end

mutual

theorem records_productions : (t : Tree) → Log.records t.productions = t.announcements
  | .int _ _ | .float _ _ | .char _ _ | .string _ _ | .bool _ _ | .reference _ _ | .absent _ => rfl
  | .operation _ left right _ => by
    rw [productions, Log.records_append, left.records_productions, right.records_productions,
      announcements]
  | .call callee arguments l => by
    rw [productions, Log.records_append, Log.records_cons, callee.records_productions,
      records_productionsAll arguments, Event.record_call, announcements]
  | .definition _ _ _ value _ => by
    rw [productions, value.records_productions, announcements]
  | .function name _ parameters body l => by
    rw [productions, Log.records_cons, Log.records_append, body.records_productions,
      records_productionsAll parameters, Event.record_function, announcements]
  | .block statements _ => by
    rw [productions, records_productionsAll statements, announcements]

theorem records_productionsAll :
    (xs : List Tree) → Log.records (productionsAll xs) = announcementsAll xs
  | [] => rfl
  | x :: xs => by
    rw [productionsAll, Log.records_append, x.records_productions, records_productionsAll xs,
      announcementsAll]

end

end Tree

namespace Log

variable {log : List Event}

/-- Wherever the event is told, a token that shows it has been read, and the record of the event
stands right behind the record of that token. -/
def Announces (log : List Event) (e : Event) (record : Record) (shows : Token → Prop) : Prop :=
  ∀ front back, log = front ++ e :: back → ∃ before u, front = before ++ [.read u] ∧ shows u ∧
    records log = records before ++ Record.lexed u :: record :: records back

/-- What is told promptly is announced. -/
theorem IsPrompt.announces {e : Event} {record : Record} {shows : Token → Prop} (h : IsPrompt log)
    (he : e.isProduction = true) (hrecord : e.record = record)
    (hshows : ∀ x : Event, x.Prompts e → ∃ u, x = .read u ∧ u.isEof = false ∧ shows u) :
    Announces log e record shows := by
  rintro front back rfl
  obtain ⟨hfirst, hchain⟩ := h
  obtain rfl | ⟨before, x, rfl⟩ := front.eq_nil_or_concat
  · -- the first event is no production
    have hnot := hfirst e (by simp)
    rw [he] at hnot
    cases hnot
  · obtain ⟨-, -, hnext⟩ := List.isChain_append.mp hchain
    obtain ⟨u, rfl, hu, hshown⟩ := hshows x (hnext x (by simp) e (by simp))
    refine ⟨before, u, List.concat_eq_append, hshown, ?_⟩
    rw [List.concat_eq_append, records_append, records_append, records_cons, records_cons,
      Event.record_read hu, hrecord, List.append_assoc]
    rfl

/-- A call is recorded right behind the bracket of its arguments. -/
theorem IsPrompt.announces_call (h : IsPrompt log) (l : Location) :
    Announces log (.call l) (Record.call l) fun u => u.isPunctuation "(" = true := by
  refine h.announces rfl (Event.record_call l) ?_
  rintro x ⟨u, rfl, hu⟩
  exact ⟨u, rfl, Token.isEof_of_is (by decide) hu, hu⟩

/-- A function is recorded right behind its name. -/
theorem IsPrompt.announces_function (h : IsPrompt log) (name : String) (l : Location) :
    Announces log (.function name l) (Record.function name l) fun u =>
      u.kind = .identifier ∧ u.value = name := by
  refine h.announces rfl (Event.record_function name l) ?_
  rintro x ⟨u, rfl, hkind, hvalue⟩
  exact ⟨u, rfl, Token.isEof_of_isIdentifier (beq_iff_eq.mpr hkind), hkind, hvalue⟩

end Log

/-! ## Logs of a text -/

/-- Taking all tokens of a text tells what the text has to offer. -/
theorem tokenizeLog_eq (source : String) : tokenizeLog source = (TokenStream.ofText source).log :=
  (reads_ofCursor (.ofText source)).log_tellTokenize

/-- A parser off a lexer tells the account of the stream. -/
theorem parseLog_eq (source : String) :
    parseLog source = (Parser.program (.ofText source)).log :=
  (PullParser.program_of_reads (reads_ofCursor (.ofText source))).2.2

/-- The tokens of a text are recorded one by one, and the end behind them if it is reached. -/
theorem records_of_deliversAll {source : String} {T : List Token} {last : Lexer}
    (hT : (ofText source).DeliversAll T last) :
    (∀ e, tokenize source = .error e →
      Log.records (tokenizeLog source) = T.map Record.lexed) ∧
    ∀ ts, tokenize source = .ok ts → ∃ l, ts = T ++ [.eof l] ∧
      Log.records (tokenizeLog source) = T.map Record.lexed ++ [Record.ended l] := by
  obtain ⟨hstream, hsound⟩ := hT.1.stream_eq (sound_ofCursor _)
  have htext : TokenStream.ofText source = last.stream.prepend T := hstream
  have hlexed := Log.records_read (TokenStream.isEof_of_ofCursor htext)
  constructor
  · intro e h
    have hhead : last.stream.head = .error e := by
      rw [← next_fst hsound]
      exact (tokenize_eq_error_iff hT).mp h
    rw [tokenizeLog_eq, TokenStream.log, htext, TokenStream.readable_prepend,
      TokenStream.readable_of_head_error hhead, List.append_nil, hlexed]
  · intro ts h
    obtain ⟨us, l, rfl, hus⟩ := tokenize_eq_ok_iff_stream.mp h
    obtain ⟨d, hd, hending⟩ := exists_delivers hus
    have hend : ∀ t, (ofCursor d).next.1 = .ok t → t.isEof = true := by
      intro t ht
      have hstream : (ofCursor d).stream = .ending l := hending
      rw [next_fst (sound_ofCursor d), hstream] at ht
      cases ht
      rfl
    obtain ⟨rfl, -⟩ := hT.eq_of_next hd hend
    refine ⟨l, rfl, ?_⟩
    rw [tokenizeLog_eq, TokenStream.log, hus, TokenStream.readable_prepend, List.map_append,
      Log.records_append, hlexed, ← Event.record_eof]
    rfl

/-- A parser that succeeds tells the statements and the end, which is behind all tokens that are
told. -/
theorem parseLog_of_parse {source : String} {t : Tree} (h : parse source = .ok t) :
    ∃ xs m front l, t = .block xs m ∧
      parseLog source = front ++ [.read (.eof l)] ++ [.program xs.length] ∧ Log.IsOpen front ∧
      TokenStream.ofText source = (TokenStream.ending l).prepend (Log.tokens front) ∧
      Recounts (.statements xs) (front ++ [.read (.eof l)]) := by
  obtain ⟨-, hsuccess⟩ := Parser.log_program (.ofText source)
  obtain ⟨xs, m, log, u, r, rfl, hlog, hopen, heof, hupTo, hrecounts⟩ := hsuccess t h
  rw [← parseLog_eq] at hlog
  obtain ⟨ts, hstream, hu, htokens⟩ := hupTo
  -- in the stream of a text the end token is nowhere but at the end
  obtain ⟨d, -, rfl⟩ := exists_delivers hstream
  have hending : TokenStream.ofCursor d = .ending u.location :=
    stream_of_head_eof (sound_ofCursor d) hu heof
  rw [hending] at hu hstream
  obtain ⟨front, v, rfl⟩ := hrecounts.exists_end
  obtain ⟨rfl, rfl⟩ : Log.tokens front = ts ∧ v = u := by
    simpa [Log.tokens_append] using htokens
  obtain ⟨l, rfl⟩ : ∃ l, v = .eof l := ⟨v.location, (Except.ok.inj hu).symm⟩
  exact ⟨xs, m, front, l, rfl, hlog, (List.forall_mem_append.mp hopen).1, hstream, hrecounts⟩

/-- The logs of a text tell every token and every production once. A lexer off which all tokens are
taken answers what `tokenize` does, and records the tokens `T` that are taken before the end or the
first failure, in their order, and the end last if it is reached. A parser off a lexer comes to what
`parse` does. If it is refused a token, it tells the same up to that token; if it fails to read a
token, it tells the same up to the failure, and if it succeeds, all of it. Only a success records a
program, last, behind the end and with the number of its statements; its calls and its functions are
those of the tree, each recorded right behind the bracket of its arguments, or behind its name. -/
theorem log_tells_everything_once (source : String) :
    ((ofText source).tellTokenize.answer.1 = tokenize source ∧
      (PullParser.program (ofText source)).result = parse source) ∧
    (∃ T last, (ofText source).DeliversAll T last ∧
      (∀ e, tokenize source = .error e →
        Log.records (tokenizeLog source) = T.map Record.lexed) ∧
      ∀ ts, tokenize source = .ok ts → ∃ l, ts = T ++ [.eof l] ∧
        Log.records (tokenizeLog source) = T.map Record.lexed ++ [Record.ended l]) ∧
    (∀ e, parse source = .error e → ∀ x ∈ Log.records (parseLog source), x.1 = "TRACE") ∧
    (∀ e, parse source = .error (.syntactic e) → ∃ ts us,
      tokenizeLog source = (ts ++ e.found :: us).map .read ∧
        Log.tokens (parseLog source) = ts ++ [e.found]) ∧
    (∀ e, parse source = .error (.lexical e) → tokenize source = .error e ∧
      tokenizeLog source = (Log.tokens (parseLog source)).map .read) ∧
    ∀ t, parse source = .ok t → ∃ xs m front l,
      t = .block xs m ∧ tokenize source = .ok (Log.tokens (parseLog source)) ∧
        tokenizeLog source = (Log.tokens (parseLog source)).map .read ∧
        parseLog source = front ++ [.read (.eof l), .program xs.length] ∧
        Log.records (parseLog source) =
          Log.records front ++ [Record.ended l, Record.program xs.length] ∧
        (∀ x ∈ Log.records front, x.1 = "TRACE") ∧
        Log.productions (parseLog source) = t.productions ∧
        Log.records (Log.productions (parseLog source)) = t.announcements ∧
        Log.IsPrompt (parseLog source) ∧
        (∀ l, Log.Announces (parseLog source) (.call l) (Record.call l)
          fun u => u.isPunctuation "(" = true) ∧
        (∀ name l, Log.Announces (parseLog source) (.function name l) (Record.function name l)
          fun u => u.kind = .identifier ∧ u.value = name) ∧
        Recounts (.statements xs) (front ++ [.read (.eof l)]) := by
  obtain ⟨hfailure, -⟩ := Parser.log_program (.ofText source)
  rw [← parseLog_eq] at hfailure
  obtain ⟨T, last, hT⟩ := exists_deliversAll (.ofText source)
  refine ⟨⟨?_, PullParser.result_program_ofText source⟩,
    ⟨T, last, hT, records_of_deliversAll hT⟩, ?_, ?_, ?_, ?_⟩
  · rw [answer_tellTokenize]
    rfl
  · intro e h
    exact (hfailure e h).1.level_eq
  · intro e h
    obtain ⟨-, r, ts, hstream, hhead, htokens⟩ := hfailure _ h
    obtain ⟨us, hus⟩ := TokenStream.exists_readable_of_head hhead
    refine ⟨ts, us, ?_, htokens⟩
    rw [tokenizeLog_eq, TokenStream.log, hstream, TokenStream.readable_prepend, hus]
  · intro e h
    obtain ⟨-, r, hstream, hhead⟩ := hfailure _ h
    constructor
    · have htokens := TokenStream.tokens_eq_error_iff.mpr ⟨_, r, hstream, hhead⟩
      exact (drain_fst (.ofText source)).trans htokens
    · rw [tokenizeLog_eq, TokenStream.log, hstream, TokenStream.readable_prepend,
        TokenStream.readable_of_head_error hhead, List.append_nil]
  · intro t h
    obtain ⟨xs, m, front, l, rfl, hend, hopen, hstream, hrecounts⟩ := parseLog_of_parse h
    have htold : Log.tokens (parseLog source) = Log.tokens front ++ [.eof l] := by
      rw [hend, Log.tokens_append, Log.tokens_append, List.append_assoc]
      rfl
    have hproductions : Log.productions (parseLog source) = (Tree.block xs m).productions := by
      rw [hend, Log.productions_append, hrecounts.productions_eq]
      exact List.append_nil _
    have hprompt : Log.IsPrompt (parseLog source) := by
      have hprogram : Log.IsPrompt [.program xs.length] :=
        ⟨by simp [Event.isProduction], .singleton _⟩
      rw [hend]
      exact hrecounts.isPrompt.append hprogram
    refine ⟨xs, m, front, l, rfl, ?_, ?_, ?_, ?_, hopen.level_eq, hproductions, ?_, hprompt,
      hprompt.announces_call, hprompt.announces_function, hrecounts⟩
    · exact tokenize_eq_ok_iff_stream.mpr ⟨_, l, htold, hstream⟩
    · rw [tokenizeLog_eq, TokenStream.log, hstream, TokenStream.readable_prepend, htold]
      rfl
    · rw [hend, List.append_assoc]
      rfl
    · rw [hend, Log.records_append, Log.records_append, List.append_assoc, ← Event.record_eof]
      rfl
    · rw [hproductions, Tree.records_productions]

/-- A function with a call in its body, and a call that is not closed. -/
theorem log_tells_everything_once_calls :
    Log.records (Log.productions (parseLog "def f() -> t \x7b g() \x7d;")) =
        [("TRACE", "parsing function 'f' at 1:1"), ("TRACE", "parsing call at 1:16")] ∧
      Log.IsPrompt (parseLog "def f() -> t \x7b g() \x7d;") ∧
      (∀ x ∈ Log.records (parseLog "g("), x.1 = "TRACE") ∧
      ∃ us, tokenizeLog "g(" = (Log.tokens (parseLog "g(") ++ us).map .read := by
  have hfunction : parse "def f() -> t \x7b g() \x7d;" =
      .ok (.block [.function "f" "t" [] (.block [.call (.reference "g" ⟨1, 16⟩) [] ⟨1, 16⟩]
        ⟨1, 14⟩) ⟨1, 1⟩] ⟨1, 1⟩) := by
    with_unfolding_all rfl
  have hopen : parse "g(" =
      .error (.syntactic (.expectedToken (.eof ⟨1, 3⟩) .punctuation ")")) := by
    with_unfolding_all rfl
  obtain ⟨-, -, -, -, -, hsuccess⟩ := log_tells_everything_once "def f() -> t \x7b g() \x7d;"
  obtain ⟨-, -, -, -, -, -, -, -, -, -, -, hannounced, hprompt, -⟩ := hsuccess _ hfunction
  obtain ⟨-, -, hfailure, hsyntactic, -⟩ := log_tells_everything_once "g("
  obtain ⟨ts, us, hlog, htokens⟩ := hsyntactic _ hopen
  refine ⟨?_, hprompt, hfailure _ hopen, us, ?_⟩
  · rw [hannounced]
    decide
  · rw [htokens, List.append_assoc]
    exact hlog

end ExprLang
