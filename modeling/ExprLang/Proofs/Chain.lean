import ExprLang.Proofs.Grammar
import ExprLang.Proofs.Parses.Equivalence

set_option autoImplicit false

/-! # Chains of operators

An expression is a chain of operands with operators between them. `Chain.HasTree` says which tree
a chain has, without any parser: at its root is the last of the operators that bind loosest, and
the chains to both sides of it are the subtrees. There is at most one such tree
(`Chain.HasTree.unique`).

Precedence climbing finds it. A call at some floor takes the operators behind a left operand that
bind tighter than the floor; if the operators that the left operand is made of bind at least as
tight as the first of them, it comes to the tree of the whole chain (`Chain.exists_of_chain`).
Every row of links that bind tighter than the floor is taken in this way
(`Chain.parses_of_links`).
-/

namespace ExprLang

namespace Chain

/-- An operand as it is read: its tokens and its tree. -/
structure Operand where
  tokens : List Token
  tree : Tree

/-- An operator with the operand behind it. -/
structure Link where
  sign : Token
  op : Operator
  operand : Operand

/-- The tokens of an operator and its operand. -/
def Link.tokens (l : Link) : List Token := l.sign :: l.operand.tokens

/-- The tree of a chain that begins with an operand. -/
inductive HasTree : Tree → List Link → Tree → Prop where
  | operand {first : Tree} : HasTree first [] first
  | operation {first left right : Tree} {l : Link} {ls rs : List Link} :
      (∀ m ∈ ls, l.op.precedence ≤ m.op.precedence) →
      (∀ m ∈ rs, l.op.precedence < m.op.precedence) →
      HasTree first ls left → HasTree l.operand.tree rs right →
      HasTree first (ls ++ l :: rs) (.operation l.op left right l.sign.location)

/-- Two ways to find the last of the loosest operators find the same one. -/
theorem split_unique {l l' : Link} {ls ls' rs rs' : List Link}
    (hsame : ls ++ l :: rs = ls' ++ l' :: rs')
    (hls : ∀ m ∈ ls, l.op.precedence ≤ m.op.precedence)
    (hrs : ∀ m ∈ rs, l.op.precedence < m.op.precedence)
    (hls' : ∀ m ∈ ls', l'.op.precedence ≤ m.op.precedence)
    (hrs' : ∀ m ∈ rs', l'.op.precedence < m.op.precedence) :
    ls = ls' ∧ l = l' ∧ rs = rs' := by
  rcases List.append_eq_append_iff.mp hsame with ⟨ms, rfl, htail⟩ | ⟨ms, rfl, htail⟩
  · cases ms with
    | nil =>
        obtain ⟨rfl, rfl⟩ := List.cons.inj htail
        exact ⟨by simp, rfl, rfl⟩
    | cons m ms =>
        -- the first split is before the second one, so both bounds hold between the two
        obtain ⟨rfl, rfl⟩ := List.cons.inj htail
        have hle := hls' l (by simp)
        have hlt := hrs l' (by simp)
        omega
  · cases ms with
    | nil =>
        obtain ⟨rfl, rfl⟩ := List.cons.inj htail
        exact ⟨by simp, rfl, rfl⟩
    | cons m ms =>
        obtain ⟨rfl, rfl⟩ := List.cons.inj htail
        have hle := hls l' (by simp)
        have hlt := hrs' l (by simp)
        omega

/-- A chain has at most one tree. -/
theorem HasTree.unique {first t t' : Tree} {links : List Link} (h : HasTree first links t)
    (h' : HasTree first links t') : t = t' := by
  induction h generalizing t' with
  | operand =>
      generalize hlinks : ([] : List Link) = links at h'
      cases h' with
      | operand => rfl
      | operation => simp at hlinks
  | @operation first left right l ls rs hls hrs _ _ ihleft ihright =>
      generalize hlinks : ls ++ l :: rs = links at h'
      cases h' with
      | operand => simp at hlinks
      | operation hls' hrs' hleft' hright' =>
          obtain ⟨rfl, rfl, rfl⟩ := split_unique hlinks hls hrs hls' hrs'
          rw [ihleft hleft', ihright hright']

/-! ## Links on a stream -/

/-- The links are read off the first stream, each operand as one atom, and the second stream is
left. -/
inductive Links : List Link → TokenStream → TokenStream → Prop where
  | nil {s : TokenStream} : Links [] s s
  | cons {u : Token} {op : Operator} {o : Operand} {links : List Link} {r r' : TokenStream} :
      u.operator? = some op → (Parser.atom (r.prepend o.tokens)).Yields o.tree r →
      Links links r r' → Links (⟨u, op, o⟩ :: links) (.token u (r.prepend o.tokens)) r'

theorem Links.append {ls ms : List Link} {s r r' : TokenStream} (hls : Links ls s r)
    (hms : Links ms r r') : Links (ls ++ ms) s r' := by
  induction hls with
  | nil => exact hms
  | cons hop hatom _ ih => exact .cons hop hatom (ih hms)

/-- A row of links is read part by part. -/
theorem Links.split {ls ms : List Link} {s r' : TokenStream} (h : Links (ls ++ ms) s r') :
    ∃ r, Links ls s r ∧ Links ms r r' := by
  induction ls generalizing s with
  | nil => exact ⟨s, .nil, h⟩
  | cons l ls ih =>
      cases h with
      | cons hop hatom hlinks =>
          obtain ⟨r, hls, hms⟩ := ih hlinks
          exact ⟨r, .cons hop hatom hls, hms⟩

/-- The first link is what the stream begins with. -/
theorem Links.head_eq {links : List Link} {s r : TokenStream} {u : Token} (h : Links links s r)
    (hhead : s.head = .ok u) : ∀ l ∈ links.head?, u.operator? = some l.op := by
  intro l hl
  cases h with
  | nil => cases hl
  | cons hop _ _ =>
      cases hl
      cases hhead
      exact hop

theorem Links.eq_prepend {links : List Link} {s r : TokenStream} (h : Links links s r) :
    s = r.prepend (links.flatMap Link.tokens) := by
  induction h with
  | nil => rfl
  | cons _ _ _ ih =>
      rw [List.flatMap_cons, TokenStream.prepend_append, ← ih]
      rfl

/-- What is read as an atom, as an operand. -/
theorem exists_operand {t : Tree} {s r : TokenStream} (h : Parser.Parses (.atom t) s r) :
    ∃ o : Operand, s = r.prepend o.tokens ∧ o.tree = t ∧ (Parser.atom s).Yields o.tree r := by
  obtain ⟨ts, hs, -⟩ := h.derives
  exact ⟨⟨ts, t⟩, hs, rfl, h.yields⟩

/-! ## Precedence climbing -/

/-- A chain with this floor does not go on here. -/
def Stops (floor : Nat) (s : TokenStream) : Prop :=
  ∃ u, s.head = .ok u ∧ ∀ op, u.operator? = some op → op.precedence ≤ floor

/-- A chain that is parsed takes links that bind tighter than its floor, as far as there are any.
If the links in its left operand bind at least as tight as the first of them, then the result is
the tree of all of them. -/
theorem exists_of_chain {floor : Nat} {left t : Tree} {s r : TokenStream}
    (h : Parser.Parses (.chain floor left t) s r) :
    ∃ links, Links links s r ∧ (∀ l ∈ links, floor < l.op.precedence) ∧ Stops floor r ∧
      ∀ first prev, HasTree first prev left →
        (∀ l ∈ links.head?, ∀ m ∈ prev, l.op.precedence ≤ m.op.precedence) →
        HasTree first (prev ++ links) t := by
  generalize hc : Parser.Construct.chain floor left t = c at h
  induction h generalizing floor left t with
  | chainStop hhead hfloor =>
      cases hc
      refine ⟨[], .nil, by simp, ⟨_, hhead, hfloor⟩, fun first prev hprev _ => ?_⟩
      rwa [List.append_nil]
  | @chainLink _ _ _ _ _ s r r' r'' u op hop hfloor hatom _ _ _ ihright ihrest =>
      cases hc
      obtain ⟨o, rfl, rfl, hyields⟩ := exists_operand hatom
      obtain ⟨ms, hms, hmsop, ⟨v, hv, hvop⟩, hright⟩ := ihright rfl
      obtain ⟨ns, hns, hnsop, hstop, hrest⟩ := ihrest rfl
      have hmsTree := hright o.tree [] .operand (by simp)
      refine ⟨⟨u, op, o⟩ :: (ms ++ ns), .cons hop hyields (hms.append hns), ?_, hstop, ?_⟩
      · intro l hl
        rcases List.mem_cons.mp hl with rfl | hl
        · exact hfloor
        rcases List.mem_append.mp hl with hl | hl
        · exact Nat.lt_trans hfloor (hmsop l hl)
        · exact hnsop l hl
      · intro first prev hprev hbound
        have hprevop : ∀ m ∈ prev, op.precedence ≤ m.op.precedence := hbound ⟨u, op, o⟩ rfl
        -- the new left operand: what was there, this operator, and all that binds tighter
        have hleft : HasTree first (prev ++ ⟨u, op, o⟩ :: ms) (.operation op _ _ u.location) :=
          .operation hprevop hmsop hprev hmsTree
        have hnext : ∀ l ∈ ns.head?, ∀ m ∈ prev ++ ⟨u, op, o⟩ :: ms,
            l.op.precedence ≤ m.op.precedence := by
          intro l hl m hm
          have hle := hvop l.op (hns.head_eq hv l hl)
          rcases List.mem_append.mp hm with hm | hm
          · exact Nat.le_trans hle (hprevop m hm)
          rcases List.mem_cons.mp hm with rfl | hm
          · exact hle
          · exact Nat.le_trans hle (Nat.le_of_lt (hmsop m hm))
        have htree := hrest first (prev ++ ⟨u, op, o⟩ :: ms) hleft hnext
        rwa [List.append_assoc, List.cons_append] at htree
  | _ => cases hc

/-- The links up to where a chain with this floor stops. -/
def tight (floor : Nat) (links : List Link) : List Link :=
  links.takeWhile fun l => floor < l.op.precedence

/-- The links from there on. -/
def loose (floor : Nat) (links : List Link) : List Link :=
  links.dropWhile fun l => floor < l.op.precedence

theorem tight_append_loose (floor : Nat) (links : List Link) :
    tight floor links ++ loose floor links = links := List.takeWhile_append_dropWhile

theorem precedence_of_mem_tight {floor : Nat} {links : List Link} :
    ∀ l ∈ tight floor links, floor < l.op.precedence := by
  intro l hl
  exact of_decide_eq_true (List.all_eq_true.mp List.all_takeWhile l hl)

theorem precedence_of_head_loose {floor : Nat} {links : List Link} :
    ∀ l ∈ (loose floor links).head?, l.op.precedence ≤ floor := by
  intro l hl
  have hnot := List.head?_dropWhile_not (fun l : Link => decide (floor < l.op.precedence)) links
  unfold loose at hl
  rw [hl] at hnot
  simpa using hnot

/-- A chain stops where links begin that do not bind tighter than its floor. -/
theorem stops_of_links {floor floor' : Nat} {links : List Link} {s r : TokenStream}
    (h : Links links s r) (hhead : ∀ l ∈ links.head?, l.op.precedence ≤ floor)
    (hstop : Stops floor' r) (hfloor : floor' ≤ floor) : Stops floor s := by
  cases h with
  | nil =>
      obtain ⟨u, hu, hop⟩ := hstop
      exact ⟨u, hu, fun op h => Nat.le_trans (hop op h) hfloor⟩
  | @cons u op o _ _ _ hop _ _ =>
      refine ⟨u, rfl, fun op' hop' => ?_⟩
      obtain rfl : op = op' := Option.some.inj (hop.symm.trans hop')
      exact hhead _ rfl

/-- Links that bind tighter than the floor are taken, if the chain can stop behind them. -/
theorem parses_of_links {floor : Nat} {links : List Link} {s r : TokenStream}
    (h : Links links s r) (hfloor : ∀ l ∈ links, floor < l.op.precedence) (hstop : Stops floor r)
    (left : Tree) : ∃ t, Parser.Parses (.chain floor left t) s r := by
  -- on the number of links: an operator hands the tight ones to its right operand, and the loose
  -- ones are left to the loop
  induction hn : links.length using Nat.strongRecOn generalizing floor links s r left with
  | ind n ih =>
      cases h with
      | nil =>
          obtain ⟨u, hu, hop⟩ := hstop
          exact ⟨left, .chainStop hu hop⟩
      | @cons u op o links s' _ hop hatom hlinks =>
          have hbound := hfloor ⟨u, op, o⟩ (List.mem_cons_self ..)
          have hlength : (tight op.precedence links).length + (loose op.precedence links).length =
              links.length := by
            rw [← List.length_append, tight_append_loose]
          rw [← tight_append_loose op.precedence links] at hlinks
          obtain ⟨s'', htight, hloose⟩ := hlinks.split
          simp only [List.length_cons] at hn
          have hstop' : Stops op.precedence s'' :=
            stops_of_links hloose precedence_of_head_loose hstop (Nat.le_of_lt hbound)
          obtain ⟨right, hright⟩ :=
            ih _ (by omega) htight precedence_of_mem_tight hstop' o.tree rfl
          have hrest : ∀ l ∈ loose op.precedence links, floor < l.op.precedence := by
            intro l hl
            exact hfloor l (List.mem_cons_of_mem _ ((List.dropWhile_sublist _).mem hl))
          obtain ⟨t, ht⟩ :=
            ih _ (by omega) hloose hrest hstop (.operation op left right u.location) rfl
          exact ⟨t, .chainLink hop hbound (Parser.parses_atom hatom) hright ht⟩

/-- A link takes something off the stream. -/
theorem not_links_self {l : Link} {ls : List Link} {s : TokenStream} : ¬ Links (l :: ls) s s := by
  intro h
  have hsize := congrArg TokenStream.size h.eq_prepend
  rw [TokenStream.size_prepend, List.flatMap_cons, List.length_append, Link.tokens,
    List.length_cons] at hsize
  omega

/-- The links up to some stream are the same, however they are found. -/
theorem Links.unique {links links' : List Link} {s r : TokenStream} (h : Links links s r)
    (h' : Links links' s r) : links = links' := by
  induction h generalizing links' with
  | nil =>
      cases links' with
      | nil => rfl
      | cons l ls => exact absurd h' not_links_self
  | @cons u op o links r₁ r hop hatom hlinks ih =>
      generalize hs : TokenStream.token u (r₁.prepend o.tokens) = s at h'
      cases h' with
      | nil =>
          subst hs
          exact absurd (.cons hop hatom hlinks) not_links_self
      | @cons u' op' o' links' r₂ _ hop' hatom' hlinks' =>
          obtain ⟨rfl, hstream⟩ := TokenStream.token.inj hs
          obtain rfl : op = op' := Option.some.inj (hop.symm.trans hop')
          -- the parser takes one operand only, so its tokens and its tree are determined
          rw [← hstream] at hatom'
          obtain ⟨htree, rfl⟩ := hatom.unique hatom'
          have htokens := TokenStream.prepend_cancel hstream
          obtain ⟨tokens, tree⟩ := o
          obtain ⟨tokens', tree'⟩ := o'
          obtain rfl : tree = tree' := htree
          obtain rfl : tokens = tokens' := htokens
          rw [ih hlinks']

/-- Links up to a stop are taken, and the result is the tree of their chain. -/
theorem parses_of_hasTree {floor : Nat} {links : List Link} {s r : TokenStream} {first t : Tree}
    (h : Links links s r) (hfloor : ∀ l ∈ links, floor < l.op.precedence) (hstop : Stops floor r)
    (htree : HasTree first links t) : Parser.Parses (.chain floor first t) s r := by
  -- some tree is found, for links that can only be these, and they have one tree
  obtain ⟨t', ht'⟩ := parses_of_links h hfloor hstop first
  obtain ⟨links', hlinks', -, -, hhas⟩ := exists_of_chain ht'
  have htree' : HasTree first links' t' := hhas first [] .operand (by simp)
  rw [← h.unique hlinks'] at htree'
  rwa [htree.unique htree']

/-! ## Expressions -/

/-- How the expression `t` is read off the stream `s` as a chain, so that `r` is left. -/
structure Parsed (s : TokenStream) (t : Tree) (r : TokenStream) where
  first : Operand
  links : List Link
  /-- The tree of the chain. -/
  tree : Tree
  /-- The token at which the chain stops. -/
  stop : Token
  /-- What is behind the first operand, and what is behind the last one. -/
  inside : TokenStream
  behind : TokenStream
  eq_first : s = inside.prepend first.tokens
  eq_links : inside = behind.prepend (links.flatMap Link.tokens)
  first_yields : (Parser.atom s).Yields first.tree inside
  links_read : Links links inside behind
  hasTree : HasTree first.tree links tree
  hasTree_unique : ∀ t', HasTree first.tree links t' → t' = tree
  head_behind : behind.head = .ok stop
  stop_operator : stop.operator? = none
  /-- The chain is the expression, or it is the callee of arguments behind it. -/
  result : (stop.isPunctuation "(" = false ∧ t = tree ∧ r = behind) ∨
    (stop.isPunctuation "(" = true ∧ ∃ arguments ts, behind = .token stop (r.prepend ts) ∧
      (Parser.items .arguments (r.prepend ts)).Yields arguments r ∧
      t = .call tree arguments tree.location)

/-- A stop of the outermost chain is no operator at all. -/
theorem operator_of_stops {u : Token} {s : TokenStream} (h : Stops 0 s) (hu : s.head = .ok u) :
    u.operator? = none := by
  obtain ⟨v, hv, hop⟩ := h
  obtain rfl : u = v := Except.ok.inj (hu.symm.trans hv)
  cases hsign : u.operator? with
  | none => rfl
  | some op => exact absurd (hop op hsign) (Nat.not_le_of_gt op.precedence_pos)

/-- Every expression that is parsed is a chain of operands with its one tree, perhaps applied as
a whole to arguments. -/
theorem expression_is_chain {s r : TokenStream} {t : Tree}
    (h : (Parser.expression s).Yields t r) : Nonempty (Parsed s t r) := by
  cases Parser.parses_expression h with
  | @expression _ e _ _ r₀ _ _ hatom hchain happlied =>
      obtain ⟨first, hfirst, rfl, hyields⟩ := exists_operand hatom
      obtain ⟨links, hlinks, -, hstop, htree⟩ := exists_of_chain hchain
      have hlinksTree : HasTree first.tree links e := htree first.tree [] .operand (by simp)
      have hunique : ∀ t', HasTree first.tree links t' → t' = e :=
        fun t' ht' => ht'.unique hlinksTree
      generalize hc : Parser.Construct.applied e t = c at happlied
      cases happlied with
      | noCall hhead hopen =>
          cases hc
          exact ⟨⟨first, links, _, _, r₀, _, hfirst, hlinks.eq_prepend, hyields, hlinks,
            hlinksTree, hunique, hhead, operator_of_stops hstop hhead, .inl ⟨hopen, rfl, rfl⟩⟩⟩
      | @call _ arguments s' _ u hopen hitems =>
          cases hc
          obtain ⟨ts, rfl, -⟩ := hitems.derives
          exact ⟨⟨first, links, e, u, r₀, _, hfirst, hlinks.eq_prepend, hyields, hlinks,
            hlinksTree, hunique, rfl, operator_of_stops hstop rfl,
            .inr ⟨hopen, arguments, ts, rfl, hitems.yields, rfl⟩⟩⟩
      | _ => cases hc

/-- What is ahead in `x - y * z - v;` behind the first `n` tokens. -/
def differenceStream (n : Nat) : TokenStream :=
  (TokenStream.ending ⟨1, 15⟩).prepend <| List.drop n
    [⟨.identifier, "x", ⟨1, 1⟩⟩, ⟨.operator, "-", ⟨1, 3⟩⟩, ⟨.identifier, "y", ⟨1, 5⟩⟩,
      ⟨.operator, "*", ⟨1, 7⟩⟩, ⟨.identifier, "z", ⟨1, 9⟩⟩, ⟨.operator, "-", ⟨1, 11⟩⟩,
      ⟨.identifier, "v", ⟨1, 13⟩⟩, ⟨.punctuation, ";", ⟨1, 14⟩⟩]

/-- The tree of `y * z`. -/
def productTree : Tree :=
  .operation .multiply (.reference "y" ⟨1, 5⟩) (.reference "z" ⟨1, 9⟩) ⟨1, 7⟩

/-- The tree of `x - y * z - v`, with the second difference at its root. -/
def differenceTree : Tree :=
  .operation .subtract (.operation .subtract (.reference "x" ⟨1, 1⟩) productTree ⟨1, 3⟩)
    (.reference "v" ⟨1, 13⟩) ⟨1, 11⟩

/-- The second difference binds as loose as the first one and comes later. -/
theorem difference_is_chain :
    (Parser.expression (differenceStream 0)).Yields differenceTree (differenceStream 7) ∧
      Nonempty (Parsed (differenceStream 0) differenceTree (differenceStream 7)) := by
  have hx : Parser.Parses (.atom (.reference "x" ⟨1, 1⟩)) (differenceStream 0)
      (differenceStream 1) := .atom (.operand rfl) (.noCall rfl rfl)
  have hy : Parser.Parses (.atom (.reference "y" ⟨1, 5⟩)) (differenceStream 2)
      (differenceStream 3) := .atom (.operand rfl) (.noCall rfl rfl)
  have hz : Parser.Parses (.atom (.reference "z" ⟨1, 9⟩)) (differenceStream 4)
      (differenceStream 5) := .atom (.operand rfl) (.noCall rfl rfl)
  have hv : Parser.Parses (.atom (.reference "v" ⟨1, 13⟩)) (differenceStream 6)
      (differenceStream 7) := .atom (.operand rfl) (.noCall rfl rfl)
  -- operands of a product stop at a difference, and so do right operands of a difference
  have hstop : ∀ floor left, 10 ≤ floor →
      Parser.Parses (.chain floor left left) (differenceStream 5) (differenceStream 5) := by
    intro floor left hfloor
    refine .chainStop rfl fun op hop => ?_
    obtain rfl : Operator.subtract = op := Option.some.inj hop
    exact hfloor
  have hend : ∀ floor left,
      Parser.Parses (.chain floor left left) (differenceStream 7) (differenceStream 7) :=
    fun _ _ => .chainStop rfl (fun _ hop => by cases hop)
  have hproduct : Parser.Parses (.chain 10 (.reference "y" ⟨1, 5⟩) productTree)
      (differenceStream 3) (differenceStream 5) :=
    .chainLink rfl (by decide) hz (hstop 20 _ (by decide)) (hstop 10 _ (by decide))
  have hsecond : ∀ left, Parser.Parses
      (.chain 0 left (.operation .subtract left (.reference "v" ⟨1, 13⟩) ⟨1, 11⟩))
      (differenceStream 5) (differenceStream 7) :=
    fun _ => .chainLink rfl (by decide) hv (hend 10 _) (hend 0 _)
  have hchain : Parser.Parses (.chain 0 (.reference "x" ⟨1, 1⟩) differenceTree)
      (differenceStream 1) (differenceStream 7) :=
    .chainLink rfl (by decide) hy hproduct (hsecond _)
  have hparses := Parser.Parses.expression hx hchain (.noCall rfl rfl)
  exact ⟨hparses.yields, expression_is_chain hparses.yields⟩

end Chain

end ExprLang
