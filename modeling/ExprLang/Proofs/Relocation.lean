import ExprLang.Proofs.Agreement
import ExprLang.Proofs.Flattening
import ExprLang.Proofs.Printing

set_option autoImplicit false

/-! # Locations are carried through

A parser looks at the kinds and the values of tokens, and carries their locations to the trees and
to the errors. So moving every location by some function `f` and parsing afterwards is the same as
parsing first and moving the locations of the result: `Parses.relocate` for what is read, and
`Goal.Fails.relocate` for what is refused.

As `f` may be any function, this also says which locations a result has. If `f` leaves the places
of the tokens alone and nothing else, then it leaves the result alone, so all locations in it are
such places (`parse_carries_locations`).
-/

namespace ExprLang

open Lexer

/-! ## Moving locations -/

section

variable (f : Location → Location)

/-- The same token at another place. -/
def Token.relocate (t : Token) : Token := { t with location := f t.location }

/-- The same failure at another place. -/
def LexError.relocate : LexError → LexError
  | .unexpectedCharacter c l => .unexpectedCharacter c (f l)
  | .unterminatedLiteral kind l => .unterminatedLiteral kind (f l)
  | .unknownEscape c l => .unknownEscape c (f l)

/-- The same error about the same token at another place. -/
def SyntaxError.relocate : SyntaxError → SyntaxError
  | .unexpectedToken t => .unexpectedToken (t.relocate f)
  | .expectedToken t kind value => .expectedToken (t.relocate f) kind value
  | .invalidLiteral t reason => .invalidLiteral (t.relocate f) reason

def ParseError.relocate : ParseError → ParseError
  | .lexical e => .lexical (e.relocate f)
  | .syntactic e => .syntactic (e.relocate f)

mutual

/-- The same tree with all of its locations moved. -/
def Tree.relocate : Tree → Tree
  | .absent l => .absent (f l)
  | .bool x l => .bool x (f l)
  | .char x l => .char x (f l)
  | .int x l => .int x (f l)
  | .float x l => .float x (f l)
  | .string x l => .string x (f l)
  | .reference x l => .reference x (f l)
  | .operation op left right l => .operation op left.relocate right.relocate (f l)
  | .call callee xs l => .call callee.relocate (Tree.relocateAll xs) (f l)
  | .definition x type isConst value l => .definition x type isConst value.relocate (f l)
  | .function x result ps body l =>
    .function x result (Tree.relocateAll ps) body.relocate (f l)
  | .block xs l => .block (Tree.relocateAll xs) (f l)

/-- The trees of a list with all of their locations moved. -/
def Tree.relocateAll : List Tree → List Tree
  | [] => []
  | x :: xs => x.relocate :: Tree.relocateAll xs

end

/-- What is found when a token is taken, at another place. -/
def relocateFound (x : Except LexError Token) : Except LexError Token :=
  (x.map (Token.relocate f)).mapError (LexError.relocate f)

/-- What comes of parsing, with all of its locations moved. -/
def relocateResult (x : Except ParseError Tree) : Except ParseError Tree :=
  (x.map (Tree.relocate f)).mapError (ParseError.relocate f)

/-- The same tokens and failures at other places. -/
def TokenStream.relocate : TokenStream → TokenStream
  | .token t rest => .token (t.relocate f) rest.relocate
  | .fault e rest => .fault (e.relocate f) rest.relocate
  | .stuck x l => .stuck x (f l)
  | .ending l => .ending (f l)

end

variable {f : Location → Location}

theorem word_relocate (ts : List Token) : word (ts.map (Token.relocate f)) = word ts := by
  rw [word, word, List.map_map]
  rfl

@[simp] theorem SyntaxError.location_relocate (e : SyntaxError) :
    (e.relocate f).location = f e.location := by cases e <;> rfl

@[simp] theorem LexError.location_relocate (e : LexError) :
    (e.relocate f).location = f e.location := by cases e <;> rfl

@[simp] theorem ParseError.location_relocate (e : ParseError) :
    (e.relocate f).location = f e.location := by
  cases e with
  | lexical e => exact e.location_relocate
  | syntactic e => exact e.location_relocate

namespace Tree

@[simp] theorem location_relocate (t : Tree) : (t.relocate f).location = f t.location := by
  cases t <;> rfl

theorem relocateAll_eq_map (ts : List Tree) : relocateAll f ts = ts.map (relocate f) := by
  induction ts with
  | nil => rfl
  | cons t ts ih => rw [relocateAll, ih, List.map_cons]

theorem children_relocate (t : Tree) :
    (t.relocate f).children = t.children.map (relocate f) := by
  cases t with
  | call callee xs l => exact congrArg (callee.relocate f :: ·) (relocateAll_eq_map xs)
  | function x result ps body l =>
      show relocateAll f ps ++ [body.relocate f] = (ps ++ [body]).map (relocate f)
      rw [relocateAll_eq_map, List.map_append]
      rfl
  | block xs l => exact relocateAll_eq_map xs
  | _ => rfl

mutual

/-- A tree is as it was when nothing is moved. -/
theorem relocate_id (t : Tree) : t.relocate id = t := by
  cases t with
  | operation op left right l => rw [relocate, relocate_id left, relocate_id right, id]
  | call callee xs l => rw [relocate, relocate_id callee, relocateAll_id xs, id]
  | definition x type isConst value l => rw [relocate, relocate_id value, id]
  | function x result ps body l => rw [relocate, relocateAll_id ps, relocate_id body, id]
  | block xs l => rw [relocate, relocateAll_id xs, id]
  | _ => rfl

theorem relocateAll_id (ts : List Tree) : relocateAll id ts = ts := by
  cases ts with
  | nil => rfl
  | cons t ts => rw [relocateAll, relocate_id t, relocateAll_id ts]

end

mutual

/-- Moving all locations to the start of the text is leaving them out. -/
theorem relocate_start (t : Tree) : t.relocate (fun _ => .start) = t.unlocated := by
  cases t with
  | operation op left right l =>
      rw [relocate, unlocated, relocate_start left, relocate_start right]
  | call callee xs l => rw [relocate, unlocated, relocate_start callee, relocateAll_start xs]
  | definition x type isConst value l => rw [relocate, unlocated, relocate_start value]
  | function x result ps body l =>
      rw [relocate, unlocated, relocateAll_start ps, relocate_start body]
  | block xs l => rw [relocate, unlocated, relocateAll_start xs]
  | _ => rfl

theorem relocateAll_start (ts : List Tree) :
    relocateAll (fun _ => .start) ts = unlocatedAll ts := by
  cases ts with
  | nil => rfl
  | cons t ts => rw [relocateAll, unlocatedAll, relocate_start t, relocateAll_start ts]

end

end Tree

namespace TokenStream

theorem prepend_relocate (r : TokenStream) (ts : List Token) :
    (r.prepend ts).relocate f = (r.relocate f).prepend (ts.map (Token.relocate f)) := by
  induction ts with
  | nil => rfl
  | cons t ts ih => rw [prepend_cons, relocate, ih, List.map_cons, prepend_cons]

@[simp] theorem head_relocate (s : TokenStream) :
    (s.relocate f).head = relocateFound f s.head := by cases s <;> rfl

/-- What is in front of a stream is moved with it. -/
theorem head_prepend_relocate {r r' : TokenStream} (h : r'.head = relocateFound f r.head)
    (ts : List Token) :
    (r'.prepend (ts.map (Token.relocate f))).head = relocateFound f (r.prepend ts).head := by
  cases ts with
  | nil => exact h
  | cons t ts => rfl

theorem agree_of_head_relocate {r r' : TokenStream} (h : r'.head = relocateFound f r.head) :
    r.Agree r' := by
  intro u hu
  rw [hu] at h
  exact ⟨u.relocate f, h, rfl⟩

end TokenStream

/-! ## What is read -/

/-- What a token stands for depends on its kind and value, and is where the token is. -/
theorem Token.operand_relocate (t : Token) :
    (t.relocate f).operand =
      (t.operand.map (Tree.relocate f)).mapError (SyntaxError.relocate f) := by
  obtain ⟨kind, value, l⟩ := t
  cases kind with
  | int =>
      by_cases hle : Numeral.ofDigits value.toList ≤ maxInt
      · simp only [operand, relocate, hle, if_true]
        rfl
      · simp only [operand, relocate, hle, if_false]
        rfl
  | char =>
      simp only [operand, relocate]
      split <;> rfl
  | keyword =>
      cases htrue : value == "true" with
      | true =>
          simp only [operand, relocate, htrue, if_true]
          rfl
      | false =>
          cases hfalse : value == "false" with
          | true =>
              simp only [operand, relocate, htrue, hfalse, Bool.false_eq_true, if_false, if_true]
              rfl
          | false =>
              simp only [operand, relocate, htrue, hfalse, Bool.false_eq_true, if_false]
              rfl
  | _ => rfl

namespace Parser

/-- The same construct with the locations of its result moved. -/
def Construct.relocate (f : Location → Location) : Construct → Construct
  | .expression t => .expression (t.relocate f)
  | .chain floor left t => .chain floor (left.relocate f) (t.relocate f)
  | .applied callee t => .applied (callee.relocate f) (t.relocate f)
  | .atom t => .atom (t.relocate f)
  | .primary t => .primary (t.relocate f)
  | .block t => .block (t.relocate f)
  | .function t => .function (t.relocate f)
  | .definition t => .definition (t.relocate f)
  | .parameter t => .parameter (t.relocate f)
  | .variableBody isConst l t => .variableBody isConst (f l) (t.relocate f)
  | .items b ts => .items b (Tree.relocateAll f ts)
  | .moreItems b ts => .moreItems b (Tree.relocateAll f ts)
  | .element b t => .element b (t.relocate f)
  | .statements ts => .statements (Tree.relocateAll f ts)
  | .program t => .program (t.relocate f)

open TokenStream in
/-- A construct takes some tokens, whatever is behind the next one, and it takes them at other
places as well. -/
theorem Parses.relocate {c : Construct} {s r : TokenStream} (h : Parses c s r) :
    ∃ ts, s = r.prepend ts ∧ ∀ (f : Location → Location) (q : TokenStream),
      q.head = relocateFound f r.head →
        Parses (c.relocate f) (q.prepend (ts.map (Token.relocate f))) q := by
  induction h with
  | expression _ _ _ ihfirst ihchain ihapplied =>
      obtain ⟨ts, rfl, hfirst⟩ := ihfirst
      obtain ⟨us, rfl, hchain⟩ := ihchain
      obtain ⟨vs, rfl, happlied⟩ := ihapplied
      refine ⟨ts ++ (us ++ vs), by simp only [prepend_append], fun f q hq => ?_⟩
      have hbehind := head_prepend_relocate hq vs
      rw [List.map_append, List.map_append, prepend_append, prepend_append]
      exact .expression (hfirst f _ (head_prepend_relocate hbehind us)) (hchain f _ hbehind)
        (happlied f q hq)
  | chainStop hu hstop =>
      refine ⟨[], rfl, fun f q hq => ?_⟩
      rw [hu] at hq
      exact .chainStop hq hstop
  | @chainLink _ _ _ _ _ _ _ _ _ u _ hop hfloor _ _ _ ihfirst ihright ih =>
      obtain ⟨ts, rfl, hfirst⟩ := ihfirst
      obtain ⟨us, rfl, hright⟩ := ihright
      obtain ⟨vs, rfl, hrest⟩ := ih
      refine ⟨u :: (ts ++ (us ++ vs)), by simp only [prepend_cons, prepend_append],
        fun f q hq => ?_⟩
      have hbehind := head_prepend_relocate hq vs
      rw [List.map_cons, List.map_append, List.map_append, prepend_cons, prepend_append,
        prepend_append]
      exact .chainLink hop hfloor (hfirst f _ (head_prepend_relocate hbehind us))
        (hright f _ hbehind) (hrest f q hq)
  | @call callee _ _ _ u hu _ ih =>
      obtain ⟨ts, rfl, harguments⟩ := ih
      refine ⟨u :: ts, rfl, fun f q hq => ?_⟩
      have hcall : Parses (.applied (callee.relocate f) _) (.token (u.relocate f) _) q :=
        .call hu (harguments f q hq)
      rwa [Tree.location_relocate] at hcall
  | noCall hu hopen =>
      refine ⟨[], rfl, fun f q hq => ?_⟩
      rw [hu] at hq
      exact .noCall hq hopen
  | atom _ _ ihprimary ihapplied =>
      obtain ⟨ts, rfl, hprimary⟩ := ihprimary
      obtain ⟨us, rfl, happlied⟩ := ihapplied
      refine ⟨ts ++ us, by simp only [prepend_append], fun f q hq => ?_⟩
      rw [List.map_append, prepend_append]
      exact .atom (hprimary f _ (head_prepend_relocate hq us)) (happlied f q hq)
  | @parens _ _ r u v hu _ hv ih =>
      obtain ⟨ts, rfl, hinside⟩ := ih
      refine ⟨u :: (ts ++ [v]), by simp only [prepend_cons, prepend_append, prepend_nil],
        fun f q hq => ?_⟩
      rw [List.map_cons, List.map_append, prepend_cons, prepend_append]
      exact .parens hu (hinside f _ rfl) hv
  | blockPrimary _ ih =>
      obtain ⟨ts, rfl, hblock⟩ := ih
      exact ⟨ts, rfl, fun f q hq => .blockPrimary (hblock f q hq)⟩
  | functionPrimary _ ih =>
      obtain ⟨ts, rfl, hfunction⟩ := ih
      exact ⟨ts, rfl, fun f q hq => .functionPrimary (hfunction f q hq)⟩
  | definitionPrimary _ ih =>
      obtain ⟨ts, rfl, hdefinition⟩ := ih
      exact ⟨ts, rfl, fun f q hq => .definitionPrimary (hdefinition f q hq)⟩
  | @operand _ _ u hu =>
      refine ⟨[u], rfl, fun f q _ => .operand ?_⟩
      rw [Token.operand_relocate, hu]
      rfl
  | @block _ _ _ u hu _ ih =>
      obtain ⟨ts, rfl, hitems⟩ := ih
      exact ⟨u :: ts, rfl, fun f q hq => .block (u := u.relocate f) hu (hitems f q hq)⟩
  | @function _ _ _ _ _ word name bracket arrow result hword hname hbracket _ harrow hresult _
      ihparameters ihbody =>
      obtain ⟨ts, rfl, hparameters⟩ := ihparameters
      obtain ⟨us, rfl, hbody⟩ := ihbody
      refine ⟨word :: name :: bracket :: (ts ++ arrow :: result :: us),
        by simp only [prepend_cons, prepend_append], fun f q hq => ?_⟩
      simp only [List.map_cons, List.map_append, prepend_cons, prepend_append]
      show Parses (.function (.function (name.relocate f).value (result.relocate f).value _ _
        (word.relocate f).location)) _ q
      exact .function hword hname hbracket (hparameters f _ rfl) harrow hresult (hbody f q hq)
  | @definition _ _ _ u hu _ ih =>
      obtain ⟨ts, rfl, hbody⟩ := ih
      exact ⟨u :: ts, rfl, fun f q hq => .definition (u := u.relocate f) hu (hbody f q hq)⟩
  | parameterDefinition _ ih =>
      obtain ⟨ts, rfl, hdefinition⟩ := ih
      exact ⟨ts, rfl, fun f q hq => .parameterDefinition (hdefinition f q hq)⟩
  | parameterVariable _ ih =>
      obtain ⟨ts, hstream, hbody⟩ := ih
      refine ⟨ts, hstream, fun f q hq => ?_⟩
      have hmoved := hbody f q hq
      have hhead := head_prepend_relocate hq ts
      rw [← hstream] at hhead
      -- a variable begins with a token, and that is the one at which the parameter is
      obtain ⟨v, rest, hfront, -⟩ := hmoved.begins
      rw [hfront] at hhead hmoved ⊢
      cases hhead
      exact .parameterVariable hmoved
  | @variableAbsent _ _ _ name colon type u hname hcolon htype hu hsign =>
      refine ⟨[name, colon, type], rfl, fun f q hq => ?_⟩
      rw [hu] at hq
      show Parses (.variableBody _ _ (.definition (name.relocate f).value (type.relocate f).value _
        (.absent (u.relocate f).location) _)) _ q
      exact .variableAbsent hname hcolon htype hq hsign
  | @variableValue _ _ _ _ _ name colon type sign hname hcolon htype hsign _ ih =>
      obtain ⟨ts, rfl, hvalue⟩ := ih
      refine ⟨name :: colon :: type :: sign :: ts, rfl, fun f q hq => ?_⟩
      show Parses (.variableBody _ _ (.definition (name.relocate f).value (type.relocate f).value _
        _ _)) _ q
      exact .variableValue hname hcolon htype hsign (hvalue f q hq)
  | @itemsClose _ _ u hu => exact ⟨[u], rfl, fun f q _ => .itemsClose hu⟩
  | itemsCons _ _ ihx ihxs =>
      obtain ⟨ts, rfl, hx⟩ := ihx
      obtain ⟨us, rfl, hxs⟩ := ihxs
      refine ⟨ts ++ us, by simp only [prepend_append], fun f q hq => ?_⟩
      rw [List.map_append, prepend_append]
      exact .itemsCons (hx f _ (head_prepend_relocate hq us)) (hxs f q hq)
  | @moreClose _ _ u hu => exact ⟨[u], rfl, fun f q _ => .moreClose hu⟩
  | @moreTrailing _ _ u v hu hv => exact ⟨[u, v], rfl, fun f q _ => .moreTrailing hu hv⟩
  | @moreCons _ _ _ _ _ _ u hu _ _ ihx ihxs =>
      obtain ⟨ts, rfl, hx⟩ := ihx
      obtain ⟨us, rfl, hxs⟩ := ihxs
      refine ⟨u :: (ts ++ us), by simp only [prepend_cons, prepend_append], fun f q hq => ?_⟩
      rw [List.map_cons, List.map_append, prepend_cons, prepend_append]
      exact .moreCons hu (hx f _ (head_prepend_relocate hq us)) (hxs f q hq)
  | argument _ ih =>
      obtain ⟨ts, rfl, hexpression⟩ := ih
      exact ⟨ts, rfl, fun f q hq => .argument (hexpression f q hq)⟩
  | formal _ ih =>
      obtain ⟨ts, rfl, hparameter⟩ := ih
      exact ⟨ts, rfl, fun f q hq => .formal (hparameter f q hq)⟩
  | statement _ ih =>
      obtain ⟨ts, rfl, hexpression⟩ := ih
      exact ⟨ts, rfl, fun f q hq => .statement (hexpression f q hq)⟩
  | noStatements hu heof =>
      refine ⟨[], rfl, fun f q hq => ?_⟩
      rw [hu] at hq
      exact .noStatements hq heof
  | @statements _ _ _ _ _ u _ hu _ iht ihts =>
      obtain ⟨ts, rfl, ht⟩ := iht
      obtain ⟨us, rfl, hts⟩ := ihts
      refine ⟨ts ++ u :: us, by simp only [prepend_cons, prepend_append], fun f q hq => ?_⟩
      rw [List.map_append, prepend_append]
      exact .statements (ht f _ rfl) hu (hts f q hq)
  | program hu _ ih =>
      obtain ⟨ts, rfl, hstatements⟩ := ih
      refine ⟨ts, rfl, fun f q hq => ?_⟩
      have hhead := head_prepend_relocate hq ts
      rw [hu] at hhead
      exact .program hhead (hstatements f q hq)

/-- What is behind the next token makes no difference to an expression. -/
theorem Parses.exists_frame {t : Tree} {s r : TokenStream} (h : Parses (.expression t) s r) :
    ∃ ts, s = r.prepend ts ∧ ∀ q, q.head = r.head → Parses (.expression t) (q.prepend ts) q := by
  obtain ⟨ts, hs, hmoved⟩ := h.relocate
  have hsame : ∀ x, relocateFound id x = x := by
    intro x
    cases x with
    | ok u => rfl
    | error e => cases e <;> rfl
  refine ⟨ts, hs, fun q hq => ?_⟩
  have hframe := hmoved id q (by rw [hq, hsame])
  rwa [Construct.relocate, Tree.relocate_id, show Token.relocate id = id from rfl,
    List.map_id] at hframe

end Parser

/-! ## What is refused -/

theorem Demand.refusal_relocate {d : Demand} {t : Token} {e : SyntaxError}
    (h : d.refusal t = some e) : d.refusal (t.relocate f) = some (e.relocate f) := by
  cases d with
  | exactly kind value =>
      simp only [refusal] at h
      split at h
      · cases h
      · rename_i hvalue
        cases h
        exact if_neg hvalue
  | identifier =>
      simp only [refusal] at h
      split at h
      · cases h
      · rename_i hkind
        cases h
        exact if_neg hkind
  | operand =>
      simp only [refusal] at h
      split at h
      · cases h
      · rename_i e' he'
        cases h
        rw [refusal, Token.operand_relocate, he']
        rfl

/-- What cannot be read fails in the same way at other places. -/
theorem Goal.Fails.relocate {g : Goal} {s r q : TokenStream} {e : ParseError}
    (h : g.Fails s e r) (hq : q.head = relocateFound f s.head) :
    ∃ r', g.Fails q (e.relocate f) r' := by
  cases h with
  | lexical hhead =>
      rw [hhead] at hq
      exact ⟨_, .lexical hq⟩
  | refused hhead hrefusal =>
      rw [hhead] at hq
      exact ⟨_, .refused hq (Demand.refusal_relocate hrefusal)⟩

/-- Programs are parsed in the same way at other places. Behind the first failure the streams need
not agree. -/
theorem Parser.program_relocate {q q' : TokenStream} (hq : ∀ t rest, q ≠ .token t rest)
    (hq' : q'.head = relocateFound f q.head) (ts : List Token) :
    (program (q'.prepend (ts.map (Token.relocate f)))).result =
      relocateResult f (program (q.prepend ts)).result := by
  cases hresult : (program (q.prepend ts)).result with
  | ok t =>
      obtain ⟨r, hparses⟩ := program_eq_ok_iff.mp hresult
      obtain ⟨us, hstream, hmoved⟩ := hparses.relocate
      obtain ⟨vs, rfl, rfl⟩ := TokenStream.exists_of_prepend_eq hq hstream
      have hbehind := TokenStream.head_prepend_relocate hq' vs
      rw [List.map_append, TokenStream.prepend_append]
      exact program_eq_ok_iff.mpr ⟨_, hmoved f _ hbehind⟩
  | error e =>
      obtain ⟨us, g, gs, s, r, hstream, hrun, hfails⟩ := program_eq_error_iff.mp hresult
      obtain ⟨vs, rfl, rfl⟩ := TokenStream.exists_of_prepend_eq hq hstream
      have hbehind := TokenStream.head_prepend_relocate hq' vs
      obtain ⟨r', hfails'⟩ := hfails.relocate hbehind
      rw [List.map_append, TokenStream.prepend_append]
      exact program_eq_error_iff.mpr ⟨us.map (Token.relocate f), g, gs, _, r', rfl,
        hrun.congr (word_relocate us).symm (TokenStream.agree_of_head_relocate hbehind), hfails'⟩

/-- A stream at other places is parsed as it is, with all locations moved. -/
theorem Parser.result_program_relocate (s : TokenStream) :
    (program (s.relocate f)).result = relocateResult f (program s).result := by
  obtain ⟨ts, r, rfl, hr⟩ := s.exists_prepend
  rw [TokenStream.prepend_relocate]
  exact program_relocate hr r.head_relocate ts

/-! ## Where results are -/

/-- Some function leaves these locations alone and moves all others. -/
theorem Location.exists_fixing (places : List Location) :
    ∃ f : Location → Location, ∀ l, f l = l ↔ l ∈ places := by
  refine ⟨fun l => if l ∈ places then l else ⟨l.line + 1, l.column⟩, fun l => ?_⟩
  by_cases hl : l ∈ places
  · simp only [hl, if_true]
  · simp only [hl, if_false, iff_false]
    intro h
    have hline := congrArg Location.line h
    simp only at hline
    omega

/-- Where what is found is. -/
def locationFound : Except LexError Token → Location
  | .ok t => t.location
  | .error e => e.location

theorem Token.relocate_eq_self {t : Token} (h : f t.location = t.location) : t.relocate f = t := by
  rw [relocate, h]

theorem LexError.relocate_eq_self {e : LexError} (h : f e.location = e.location) :
    e.relocate f = e := by
  cases e with
  | unexpectedCharacter c l => exact congrArg (LexError.unexpectedCharacter c) h
  | unterminatedLiteral kind l => exact congrArg (LexError.unterminatedLiteral kind) h
  | unknownEscape c l => exact congrArg (LexError.unknownEscape c) h

theorem relocateFound_eq_self {x : Except LexError Token}
    (h : f (locationFound x) = locationFound x) : relocateFound f x = x := by
  cases x with
  | ok t => exact congrArg Except.ok (Token.relocate_eq_self h)
  | error e => exact congrArg Except.error (LexError.relocate_eq_self h)

/-- A tree that is left alone has only locations that are left alone. -/
theorem Tree.every_of_relocate_eq {t : Tree} (h : t.relocate f = t) :
    t.Every fun x => f x.location = x.location := by
  refine every_of_children (Q := fun x => x.relocate f = x) ?_ ?_ t h
  · intro x hx
    have hlocation := congrArg location hx
    rwa [location_relocate] at hlocation
  · intro x hx
    have hchildren : x.children.map (relocate f) = x.children.map id := by
      rw [← children_relocate, hx, List.map_id]
    exact List.map_inj_left.mp hchildren

/-- All locations in what comes of parsing are places of the tokens or of what is behind them. -/
theorem Parser.location_mem_of_program {q : TokenStream} (hq : ∀ t rest, q ≠ .token t rest)
    (ts : List Token) :
    (∀ t, (program (q.prepend ts)).result = .ok t →
      t.Every fun x => x.location ∈ locationFound q.head :: ts.map Token.location) ∧
    ∀ e, (program (q.prepend ts)).result = .error e →
      e.location ∈ locationFound q.head :: ts.map Token.location := by
  obtain ⟨f, hf⟩ := Location.exists_fixing (locationFound q.head :: ts.map Token.location)
  have htokens : ts.map (Token.relocate f) = ts := by
    have hsame : ts.map (Token.relocate f) = ts.map id :=
      List.map_inj_left.mpr fun t ht => Token.relocate_eq_self
        ((hf _).mpr (List.mem_cons_of_mem _ (List.mem_map_of_mem ht)))
    rwa [List.map_id] at hsame
  have hend : q.head = relocateFound f q.head :=
    (relocateFound_eq_self ((hf _).mpr (List.mem_cons_self ..))).symm
  have hself := program_relocate hq hend ts
  rw [htokens] at hself
  refine ⟨fun t ht => ?_, fun e he => ?_⟩
  · rw [ht] at hself
    have hevery := Tree.every_of_relocate_eq (Except.ok.inj hself).symm
    simpa only [hf] using hevery
  · rw [he] at hself
    have hlocation := congrArg ParseError.location (Except.error.inj hself)
    rw [ParseError.location_relocate] at hlocation
    exact (hf _).mp hlocation.symm

/-! ## Sources -/

/-- The stream of a source is the tokens that calls take in front of where they end. -/
theorem Lexer.DeliversAll.stream_eq {c : Cursor} {T : List Token} {last : Lexer}
    (hT : (ofCursor c).DeliversAll T last) :
    TokenStream.ofCursor c = last.stream.prepend T ∧ last.next.1 = last.stream.head ∧
      ∀ t rest, last.stream ≠ .token t rest := by
  obtain ⟨hstream, hsound⟩ := hT.1.stream_eq (sound_ofCursor _)
  refine ⟨hstream, next_fst hsound, fun t rest hlast => ?_⟩
  have hnext : last.next.1 = .ok t := by
    rw [next_fst hsound, hlast]
    rfl
  have hfront : last.stream = rest.prepend [t] := hlast
  have heof := isEof_of_stream hsound hfront t (List.mem_singleton_self t)
  rw [hT.2 t hnext] at heof
  cases heof

/-- A source whose tokens are those of another source at other places is parsed as that one, with
all locations moved. -/
theorem parse_relocate {source source' : String} {T : List Token} {last last' : Lexer}
    (hT : (ofText source).DeliversAll T last)
    (hT' : (ofText source').DeliversAll (T.map (Token.relocate f)) last')
    (hlast : last'.next.1 = relocateFound f last.next.1) :
    parse source' = relocateResult f (parse source) := by
  obtain ⟨hstream, hnext, hend⟩ := hT.stream_eq
  obtain ⟨hstream', hnext', -⟩ := hT'.stream_eq
  rw [hnext, hnext'] at hlast
  rw [parse, parse, TokenStream.ofText, TokenStream.ofText, hstream, hstream']
  exact Parser.program_relocate hend hlast T

theorem relocateResult_eq_ok {x : Except ParseError Tree} {t : Tree}
    (h : relocateResult f x = .ok t) : ∃ t', x = .ok t' ∧ t'.relocate f = t := by
  cases x with
  | ok t' => exact ⟨t', rfl, Except.ok.inj h⟩
  | error e => cases h

theorem relocateResult_eq_error {x : Except ParseError Tree} {e : ParseError}
    (h : relocateResult f x = .error e) : ∃ e', x = .error e' ∧ e'.relocate f = e := by
  cases x with
  | ok t => cases h
  | error e' => exact ⟨e', rfl, Except.error.inj h⟩

/-- Sources with the same kinds and values of tokens are parsed alike up to locations. -/
theorem relocateResult_parse_congr {source source' : String} {T T' : List Token}
    {last last' : Lexer} (hT : (ofText source).DeliversAll T last)
    (hT' : (ofText source').DeliversAll T' last') (hword : word T' = word T)
    (hlast : relocateFound (fun _ => .start) last'.next.1 =
      relocateFound (fun _ => .start) last.next.1) :
    relocateResult (fun _ => .start) (parse source') =
      relocateResult (fun _ => .start) (parse source) := by
  obtain ⟨hstream, hnext, hend⟩ := hT.stream_eq
  obtain ⟨hstream', hnext', hend'⟩ := hT'.stream_eq
  -- both are compared with the tokens at the start
  have htokens : T'.map (Token.relocate fun _ => .start) =
      T.map (Token.relocate fun _ => .start) := by
    have hat : ∀ ts : List Token, ts.map (Token.relocate fun _ => .start) =
        (word ts).map fun x => ⟨x.1, x.2, .start⟩ := by
      intro ts
      rw [word, List.map_map]
      rfl
    rw [hat, hat, hword]
  rw [hnext, hnext'] at hlast
  rw [parse, parse, TokenStream.ofText, TokenStream.ofText, hstream, hstream',
    ← Parser.program_relocate hend (TokenStream.head_relocate last.stream) T,
    ← Parser.program_relocate hend' ((TokenStream.head_relocate last.stream).trans hlast.symm) T',
    htokens]

/-- Successive calls take some tokens `T` before the end or the first failure. A source whose
tokens are these at the places to which `f` moves them, and which ends or fails alike, is parsed as
the first one with all locations moved by `f`. So sources that differ in layout and comments only
are parsed alike up to locations. All locations of the tree or of the error are places of tokens or
of the failure. -/
theorem parse_carries_locations (source : String) :
    (∃ T last, (ofText source).DeliversAll T last) ∧
    ∀ T last, (ofText source).DeliversAll T last →
      (∀ (f : Location → Location) (source' : String) (last' : Lexer),
        (ofText source').DeliversAll (T.map (Token.relocate f)) last' →
          last'.next.1 = relocateFound f last.next.1 →
            parse source' = relocateResult f (parse source)) ∧
      (∀ (source' : String) (T' : List Token) (last' : Lexer),
        (ofText source').DeliversAll T' last' → word T' = word T →
          relocateFound (fun _ => .start) last'.next.1 =
            relocateFound (fun _ => .start) last.next.1 →
            (∀ t, parse source = .ok t →
              ∃ t', parse source' = .ok t' ∧ t'.unlocated = t.unlocated) ∧
            ∀ e, parse source = .error e → ∃ e', parse source' = .error e' ∧
              e'.relocate (fun _ => .start) = e.relocate (fun _ => .start)) ∧
      (∀ t, parse source = .ok t → t.Every fun x =>
        x.location ∈ locationFound last.next.1 :: T.map Token.location) ∧
      (∀ e, parse source = .error e →
        e.location ∈ locationFound last.next.1 :: T.map Token.location) := by
  refine ⟨exists_deliversAll _, fun T last hT => ⟨?_, ?_, ?_⟩⟩
  · exact fun f source' last' hT' hlast => parse_relocate hT hT' hlast
  · intro source' T' last' hT' hword hlast
    have halike := relocateResult_parse_congr hT hT' hword hlast
    refine ⟨fun t ht => ?_, fun e he => ?_⟩
    · rw [ht] at halike
      obtain ⟨t', ht', hsame⟩ := relocateResult_eq_ok halike
      rw [Tree.relocate_start, Tree.relocate_start] at hsame
      exact ⟨t', ht', hsame⟩
    · rw [he] at halike
      exact relocateResult_eq_error halike
  · obtain ⟨hstream, hnext, hend⟩ := hT.stream_eq
    rw [hnext, parse, TokenStream.ofText, hstream]
    exact Parser.location_mem_of_program hend T

/-- A comment in front and a wider gap move the tokens, and the tree with them. An error is moved in
the same way. -/
theorem parse_carries_locations_comment :
    let f : Location → Location := fun l => ⟨l.line + 1, 2 * l.column - 1⟩
    let x : Token := ⟨.identifier, "x", ⟨1, 1⟩⟩
    let semicolon : Token := ⟨.punctuation, ";", ⟨1, 2⟩⟩
    let bracket : Token := ⟨.punctuation, ")", ⟨1, 1⟩⟩
    parse "#c\nx ; " = relocateResult f (parse "x;") ∧
      (∃ t, parse "x;" = .ok t ∧
        (∃ t', parse "#c\nx ; " = .ok t' ∧ t'.unlocated = t.unlocated) ∧
        t.Every fun y => y.location ∈ [⟨1, 3⟩, x.location, semicolon.location]) ∧
      ∃ e, parse ")" = .error e ∧
        (∃ e', parse " )" = .error e' ∧
          e'.relocate (fun _ => .start) = e.relocate fun _ => .start) ∧
        e.location ∈ [⟨1, 2⟩, bracket.location] := by
  intro f x semicolon bracket
  have hplain : (ofText "x;").DeliversAll [x, semicolon] (.ofCursor ⟨[], ⟨1, 3⟩⟩) := by
    have hx : (ofText "x;").next = (.ok x, .ofCursor ⟨[';'], ⟨1, 2⟩⟩) := by
      with_unfolding_all rfl
    have hsemicolon : (ofCursor ⟨[';'], ⟨1, 2⟩⟩).next =
        (.ok semicolon, .ofCursor ⟨[], ⟨1, 3⟩⟩) := by
      with_unfolding_all rfl
    refine ⟨.cons hx rfl (.cons hsemicolon rfl .nil), fun t ht => ?_⟩
    cases ht
    rfl
  have hmoved : (ofText "#c\nx ; ").DeliversAll ([x, semicolon].map (Token.relocate f))
      (.ofCursor ⟨[' '], ⟨2, 4⟩⟩) := by
    have hx : (ofText "#c\nx ; ").next =
        (.ok (x.relocate f), .ofCursor ⟨[' ', ';', ' '], ⟨2, 2⟩⟩) := by
      with_unfolding_all rfl
    have hsemicolon : (ofCursor ⟨[' ', ';', ' '], ⟨2, 2⟩⟩).next =
        (.ok (semicolon.relocate f), .ofCursor ⟨[' '], ⟨2, 4⟩⟩) := by
      with_unfolding_all rfl
    refine ⟨.cons hx rfl (.cons hsemicolon rfl .nil), fun t ht => ?_⟩
    cases ht
    rfl
  have hbracket : ∀ text l m, (ofText text).next =
      (.ok ⟨.punctuation, ")", l⟩, .ofCursor ⟨[], m⟩) →
        (ofText text).DeliversAll [⟨.punctuation, ")", l⟩] (.ofCursor ⟨[], m⟩) := by
    intro text l m hnext
    refine ⟨.cons hnext rfl .nil, fun t ht => ?_⟩
    cases ht
    rfl
  have hfirst := hbracket ")" ⟨1, 1⟩ ⟨1, 2⟩ (by with_unfolding_all rfl)
  have hsecond := hbracket " )" ⟨1, 2⟩ ⟨1, 3⟩ (by with_unfolding_all rfl)
  have hparse : parse "x;" = .ok (.block [.reference "x" ⟨1, 1⟩] ⟨1, 1⟩) := by
    with_unfolding_all rfl
  have herror : parse ")" = .error (.syntactic (.unexpectedToken bracket)) := by
    with_unfolding_all rfl
  obtain ⟨-, hall⟩ := parse_carries_locations "x;"
  obtain ⟨hrelocate, hlayout, hevery, -⟩ := hall _ _ hplain
  obtain ⟨htree, -⟩ := hlayout _ _ _ hmoved (word_relocate _) rfl
  obtain ⟨-, hall'⟩ := parse_carries_locations ")"
  obtain ⟨-, hlayout', -, hplace⟩ := hall' _ _ hfirst
  obtain ⟨-, hrefused⟩ := hlayout' _ _ _ hsecond rfl rfl
  exact ⟨hrelocate f _ _ hmoved rfl, ⟨_, hparse, htree _ hparse, hevery _ hparse⟩,
    _, herror, hrefused _ herror, hplace _ herror⟩

end ExprLang
