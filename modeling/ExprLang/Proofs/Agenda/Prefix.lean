import ExprLang.Proofs.Acceptance
import ExprLang.Proofs.Agenda.Descent
import ExprLang.Proofs.Agenda.Words
import Mathlib.Data.List.Chain

set_option autoImplicit false

/-! # What an agenda comes to behind some tokens

`Agenda.Takes gs ts hs` is a run that ends with the last of its tokens: no token behind them plans a
goal of `hs`. So it does not depend on what follows (`Agenda.Takes.unique`), and every run goes
through it (`Run.exists_takes`). A word that the grammar has with several endings therefore leads to
one agenda, and this agenda reads all of the endings.

On such an agenda a list that goes on stands right behind the demand for its separator
(`Agenda.Ordered`), so the last token tells whether a separator has just been taken.
-/

namespace ExprLang

namespace Agenda

/-- The agenda takes these tokens, whatever is behind them, and the second agenda is left. -/
inductive Takes : Agenda → List Token → Agenda → Prop where
  | nil {gs : Agenda} : Takes gs [] gs
  | plan {g : Goal} {plan gs hs : Agenda} {u : Token} {ts : List Token} :
      g.plan u = some plan → Takes (plan ++ gs) (u :: ts) hs → Takes (g :: gs) (u :: ts) hs
  | take {d : Demand} {gs hs : Agenda} {u : Token} {ts : List Token} :
      d.refusal u = none → Takes gs ts hs → Takes (.demand d :: gs) (u :: ts) hs

namespace Takes

variable {gs hs ks : Agenda} {ts : List Token}

theorem unique (h : Takes gs ts hs) (h' : Takes gs ts ks) : hs = ks := by
  induction h with
  | nil =>
      cases h' with
      | nil => rfl
  | plan hplan _ ih =>
      cases h' with
      | plan hplan' hrest =>
          obtain rfl := Option.some.inj (hplan.symm.trans hplan')
          exact ih hrest
      | take => cases hplan
  | take _ _ ih =>
      cases h' with
      | plan hplan => cases hplan
      | take _ hrest => exact ih hrest

theorem run (h : Takes gs ts hs) (s : TokenStream) : Run gs ts hs s := by
  induction h with
  | nil => exact .done
  | plan hplan _ ih => exact .plan rfl hplan ih
  | take hmet _ ih => exact .take hmet ih

end Takes

end Agenda

open Agenda

/-- A run goes through what the agenda comes to with the first tokens. -/
theorem Run.exists_takes {gs hs : Agenda} {ts us : List Token} {s : TokenStream}
    (h : Run gs (ts ++ us) hs s) : ∃ ks, Takes gs ts ks ∧ Run ks us hs s := by
  generalize hall : ts ++ us = vs at h
  induction h generalizing ts with
  | done =>
      obtain ⟨rfl, rfl⟩ := List.append_eq_nil_iff.mp hall
      exact ⟨_, .nil, .done⟩
  | plan hhead hplan hrun ih =>
      subst hall
      cases ts with
      | nil => exact ⟨_, .nil, .plan hhead hplan hrun⟩
      | cons t ts =>
          obtain rfl := Except.ok.inj hhead
          obtain ⟨ks, htakes, hrest⟩ := ih (List.cons_append ..)
          exact ⟨ks, .plan hplan htakes, hrest⟩
  | take hmet hrun ih =>
      cases ts with
      | nil =>
          subst hall
          exact ⟨_, .nil, .take hmet hrun⟩
      | cons t ts =>
          obtain ⟨rfl, rfl⟩ := List.cons.inj hall
          obtain ⟨ks, htakes, hrest⟩ := ih rfl
          exact ⟨ks, .take hmet htakes, hrest⟩

/-- A word of the grammar is taken up to the end. -/
theorem run_of_derives {ts : List Token} (h : Derives .statements (word ts)) (l : Location) :
    Run [.statements] ts [] (.ending l) := by
  obtain ⟨xs, hxs⟩ := Parser.parses_of_derives_statements h l
  obtain ⟨us, hus, hrun⟩ := (Parser.leads_statements _).exists_run hxs.yields
  rwa [TokenStream.prepend_cancel hus]

/-- A token of this kind and value. -/
def Terminal.token (x : Terminal) : Token := ⟨x.1, x.2, .start⟩

theorem word_map_token (w : List Terminal) : word (w.map Terminal.token) = w := by
  rw [word, List.map_map]
  exact List.map_id w

/-- All endings that the grammar has for some tokens are read by the agenda to which they lead. -/
theorem exists_takes_of_derives {ts : List Token} {P : List Terminal → Prop} {w : List Terminal}
    (hw : P w) (h : ∀ w, P w → Derives .statements (word ts ++ w)) :
    ∃ ks, Takes [.statements] ts ks ∧ ∀ us, P (word us) → ∀ l, Run ks us [] (.ending l) := by
  have hrun : ∀ us, P (word us) → ∀ l, Run [.statements] (ts ++ us) [] (.ending l) := by
    intro us hus l
    refine run_of_derives ?_ l
    rw [word, List.map_append]
    exact h _ hus
  obtain ⟨ks, htakes, -⟩ := (hrun _ ((word_map_token w).symm ▸ hw) .start).exists_takes
  refine ⟨ks, htakes, fun us hus l => ?_⟩
  obtain ⟨ks', htakes', hrest⟩ := (hrun us hus l).exists_takes
  rwa [htakes.unique htakes']

/-! ## Order -/

namespace Goal

/-- Is a separator demanded? -/
@[simp] def isSeparator : Goal → Bool
  | .demand (.exactly .punctuation x) => x == "," || x == ";"
  | _ => false

/-- Does the goal go on with a list behind a separator? -/
@[simp] def isNextItem : Goal → Bool
  | .nextItem _ => true
  | _ => false

/-- Does the goal go on with statements? -/
@[simp] def isStatements : Goal → Bool
  | .statements => true
  | _ => false

/-- The second goal may stand behind the first one: a list goes on behind a separator and nowhere
else, and behind a separator nothing else is due, but for statements. -/
@[simp] def Precedes (g h : Goal) : Prop :=
  (h.isNextItem = true → g.isSeparator = true) ∧
    (g.isSeparator = true → h.isNextItem = true ∨ h.isStatements = true)

end Goal

namespace Agenda

/-- Each goal may stand behind the one in front of it. -/
def Ordered (gs : Agenda) : Prop := gs.IsChain Goal.Precedes

theorem Ordered.tail {g : Goal} {gs : Agenda} (h : Ordered (g :: gs)) : gs.Ordered :=
  List.IsChain.tail h

/-- Behind what is no separator no list goes on. -/
theorem Ordered.isNextItem_eq_false {g : Goal} {gs : Agenda} (h : Ordered (g :: gs))
    (hg : g.isSeparator = false) : ∀ x ∈ gs.head?, x.isNextItem = false := by
  intro x hx
  have hprecedes : g.Precedes x := (List.isChain_cons.mp h).1 x hx
  rw [Bool.eq_false_iff] at hg ⊢
  exact fun hnext => hg (hprecedes.1 hnext)

/-- What is planned is in order, and its last goal is no demand for a separator. -/
theorem ordered_plan {g : Goal} {u : Token} {plan : Agenda} (h : g.plan u = some plan) :
    plan.Ordered ∧ ∀ x ∈ plan.getLast?, x.isSeparator = false := by
  cases g with
  | demand d => cases h
  | statements =>
      simp only [Goal.plan] at h
      split at h <;> cases h <;> simp [Ordered, expression]
  | links =>
      simp only [Goal.plan] at h
      split at h <;> cases h <;> simp [Ordered, atom]
  | application =>
      simp only [Goal.plan] at h
      split at h <;> cases h <;> simp [Ordered, Bracketing.opening]
  | primary =>
      simp only [Goal.plan] at h
      split at h
      · cases h
        simp [Ordered, expression]
      split at h
      · cases h
        simp [Ordered, block, Bracketing.opening]
      split at h
      · cases h
        simp [Ordered, function, Bracketing.opening]
      · split at h <;> cases h <;> simp [Ordered]
  | definition =>
      cases h
      simp [Ordered, variableBody]
  | parameter =>
      simp only [Goal.plan] at h
      split at h <;> cases h <;> simp [Ordered, variableBody]
  | value =>
      simp only [Goal.plan] at h
      split at h <;> cases h <;> simp [Ordered, expression]
  | items b =>
      simp only [Goal.plan] at h
      split at h <;> cases h <;> cases b <;>
        simp [Ordered, close, element, expression, Bracketing.closing]
  | moreItems b =>
      simp only [Goal.plan] at h
      split at h <;> cases h <;> cases b <;>
        simp [Ordered, close, Bracketing.closing, Bracketing.separator]
  | nextItem b =>
      simp only [Goal.plan] at h
      split at h <;> cases h <;> cases b <;>
        simp [Ordered, close, element, expression, Bracketing.closing]

/-- A plan takes the place of its goal. -/
theorem Ordered.plan {g : Goal} {u : Token} {plan gs : Agenda} (h : Ordered (g :: gs))
    (hplan : g.plan u = some plan) : Ordered (plan ++ gs) := by
  obtain ⟨hordered, hlast⟩ := ordered_plan hplan
  obtain ⟨hhead, hgs⟩ := List.isChain_cons.mp h
  refine List.isChain_append.mpr ⟨hordered, hgs, fun x hx y hy => ⟨fun hnext => ?_, ?_⟩⟩
  · -- the goal stands in front of what is behind its plan, and a demand has no plan
    have hg : g.isSeparator = true := (hhead y hy).1 hnext
    cases g with
    | demand d => cases hplan
    | _ => cases hg
  · rw [hlast x hx]
    exact nofun

theorem Takes.ordered {gs ks : Agenda} {ts : List Token} (h : Takes gs ts ks)
    (hgs : gs.Ordered) : ks.Ordered := by
  induction h with
  | nil => exact hgs
  | plan hplan _ ih => exact ih (hgs.plan hplan)
  | take _ _ ih => exact ih hgs.tail

/-- The agenda behind a token is in order, and so it is with the demand for the token in front. -/
theorem Takes.exists_demand {gs ks : Agenda} {ts : List Token} {u : Token}
    (h : Takes gs (ts ++ [u]) ks) (hgs : gs.Ordered) :
    ∃ d, d.refusal u = none ∧ Ordered (.demand d :: ks) := by
  generalize hall : ts ++ [u] = us at h
  induction h generalizing ts with
  | nil => simp at hall
  | plan hplan _ ih => exact ih (hgs.plan hplan) hall
  | take hmet hrest ih =>
      cases ts with
      | nil =>
          obtain ⟨rfl, rfl⟩ := List.cons.inj hall
          cases hrest
          exact ⟨_, hmet, hgs⟩
      | cons t ts => exact ih hgs.tail (List.cons.inj hall).2

end Agenda

end ExprLang
