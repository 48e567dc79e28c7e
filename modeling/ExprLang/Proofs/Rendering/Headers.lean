import ExprLang.Proofs.Rendering.Floats
import ExprLang.Tree.Outline

set_option autoImplicit false

/-! # Headers

The header of a node tells the node, up to what is below it (`Tree.eq_of_header`). Whatever is in
it, a header is cut in one way: the name of the kind goes up to the first blank, and the location
begins behind the last one (`Tree.header_inj`). What is between them tells the node if the node is
sound, since names are then identifiers, in which no colon and no blank can be, and since floating
point numbers are then told apart by their texts. A header of a sound node is printable, so it stays
on one line.
-/

namespace ExprLang

open CharClass

namespace Text

theorem allPrintable_identifier {name : String} (h : IsIdentifier name) : AllPrintable name :=
  fun c hc => isPrintable_of_isNameChar (h.1.1.2 c hc)

theorem allPrintable_symbol (op : Operator) : AllPrintable op.symbol := by
  cases op <;> decide

end Text

namespace Tree

open Text (AllPrintable)

/-! ## The parts of a header -/

/-- The names of each kind, in the order of the constructors. -/
def kindNames : List (List String) :=
  [["NONE"], ["BOOL"], ["CHAR"], ["INT"], ["FLOAT"], ["STRING"], ["VAR"], ["ASSIGN", "BINARY"],
    ["CALL"], ["VARDEF"], ["FUNCTION"], ["PROG"]]

theorem ctorIdx_eq (t : Tree) : t.ctorIdx = kindNames.findIdx (·.contains t.kindName) := by
  cases t with
  | operation op => cases op <;> rfl
  | _ => rfl

theorem kindName_mem (t : Tree) : t.kindName ∈ kindNames.flatten := by
  cases t with
  | operation op => cases op <;> exact List.contains_iff_mem.mp rfl
  | _ => exact List.contains_iff_mem.mp rfl

/-- The name of a kind is a word of letters. -/
theorem isLetter_of_mem_kindName {t : Tree} {c : Char} (h : c ∈ t.kindName.toList) :
    isLetter c = true := by
  have htable : ∀ name ∈ kindNames.flatten, name.toList.all isLetter = true := by decide +kernel
  exact List.all_eq_true.mp (htable _ t.kindName_mem) c h

/-- A detail is empty, or a blank sets it off. -/
theorem stopsAt_detail (t : Tree) : StopsAt (· != ' ') t.detail.toList := by
  cases t with
  | bool value => cases value <;> simp [detail]
  | definition _ _ isConst => cases isConst <;> simp [detail, String.toList_append]
  | _ => simp [detail, String.toList_append]

theorem toList_header (t : Tree) :
    t.header.toList = (t.kindName.toList ++ t.detail.toList) ++
      ' ' :: '(' :: (t.location.text.toList ++ [')']) := by
  simp [header, String.toList_append]

/-- Headers are cut in one way. -/
theorem header_inj {t u : Tree} (h : t.header = u.header) :
    t.kindName = u.kindName ∧ t.detail = u.detail ∧ t.location = u.location := by
  have hword : ∀ v : Tree, ∀ c ∈ v.kindName.toList, (c != ' ') = true := fun v =>
    forall_bne_of_not_mem (not_mem_of_forall (fun _ => isLetter_of_mem_kindName) (by decide))
  have hblank : ∀ l : Location, ' ' ∉ '(' :: (l.text.toList ++ [')']) := by
    intro l hmem
    rw [List.mem_cons, List.mem_append, List.mem_singleton] at hmem
    rcases hmem with hmem | hmem | hmem
    · revert hmem
      decide
    · have hdigit := Location.isDigit_of_mem_text hmem
      revert hdigit
      decide
    · revert hmem
      decide
  have hchars := congrArg String.toList h
  rw [toList_header, toList_header] at hchars
  -- the location is behind the last blank
  obtain ⟨hfront, hback⟩ := append_cons_inj_last (hblank _) (hblank _) hchars
  have hlocation := List.append_cancel_right (List.tail_eq_of_cons_eq hback)
  -- the name of the kind is in front of the first one
  have hkind := takeWhile_append_of_stopsAt (hword t) (stopsAt_detail t)
  rw [hfront, takeWhile_append_of_stopsAt (hword u) (stopsAt_detail u)] at hkind
  rw [hkind] at hfront
  exact ⟨String.toList_injective hkind.symm,
    String.toList_injective (List.append_cancel_left hfront),
    Location.text_inj (String.toList_injective hlocation)⟩

/-! ## Details -/

/-- What is between quotes. -/
theorem quoted_inj {opening closing s t : String}
    (h : opening ++ s ++ closing = opening ++ t ++ closing) : s = t :=
  (String.append_right_inj opening).mp ((String.append_left_inj closing).mp h)

/-- Words with a mark between them that begins with a character that is in no name. -/
theorem separated_inj {c : Char} (mark : List Char) (hc : isNameChar c = false)
    {name name' type type' : String} (hname : IsIdentifier name) (hname' : IsIdentifier name')
    (h : name.toList ++ c :: (mark ++ type.toList) = name'.toList ++ c :: (mark ++ type'.toList)) :
    name = name' ∧ type = type' := by
  obtain ⟨hfront, hback⟩ := append_cons_inj_first (not_mem_of_forall hname.1.1.2 hc)
    (not_mem_of_forall hname'.1.1.2 hc) h
  exact ⟨String.toList_injective hfront,
    String.toList_injective (List.append_cancel_left hback)⟩

theorem symbol_inj {op op' : Operator} (h : op.symbol = op'.symbol) : op = op' := by
  have hread := Operator.ofSymbol?_symbol op
  rw [h, Operator.ofSymbol?_symbol] at hread
  exact (Option.some.inj hread).symm

theorem char_detail_inj {x y : Char} {l m : Location}
    (h : (char x l).detail = (char y m).detail) : x = y := by
  have hescaped := Text.escape_inj (quoted_inj h)
  simpa using hescaped

theorem definition_detail_inj {name type name' type' : String} {k k' : Bool} {v v' : Tree}
    {l l' : Location} (hname : IsIdentifier name) (hname' : IsIdentifier name')
    (h : (definition name type k v l).detail = (definition name' type' k' v' l').detail) :
    name = name' ∧ type = type' ∧ k = k' := by
  have hword : k = k' ∧ name.toList ++ ':' :: ([' '] ++ type.toList) =
      name'.toList ++ ':' :: ([' '] ++ type'.toList) := by
    have hchars := congrArg String.toList h
    cases k <;> cases k'
    case false.true => simp [detail, String.toList_append] at hchars
    case true.false => simp [detail, String.toList_append] at hchars
    all_goals simpa [detail, String.toList_append] using hchars
  obtain ⟨rfl, hchars⟩ := hword
  obtain ⟨rfl, rfl⟩ := separated_inj [' '] (by decide) hname hname' hchars
  exact ⟨rfl, rfl, rfl⟩

theorem function_detail_inj {name result name' result' : String} {ps ps' : List Tree}
    {b b' : Tree} {l l' : Location} (hname : IsIdentifier name) (hname' : IsIdentifier name')
    (h : (function name result ps b l).detail = (function name' result' ps' b' l').detail) :
    name = name' ∧ result = result' := by
  have hchars : name.toList ++ ' ' :: (['-', '>', ' '] ++ result.toList) =
      name'.toList ++ ' ' :: (['-', '>', ' '] ++ result'.toList) := by
    simpa [detail, String.toList_append] using congrArg String.toList h
  exact separated_inj ['-', '>', ' '] (by decide) hname hname' hchars

/-- Sound nodes are told apart by their headers and by what is below them. -/
theorem eq_of_header {t u : Tree} (ht : t.IsSound) (hu : u.IsSound) (h : t.header = u.header)
    (hchildren : t.children = u.children) : t = u := by
  obtain ⟨hkind, hdetail, hlocation⟩ := header_inj h
  have hctor : t.ctorIdx = u.ctorIdx := by rw [ctorIdx_eq, ctorIdx_eq, hkind]
  -- only pairs of one constructor are left
  cases t <;> cases u <;> try (cases hctor; done)
  all_goals simp only [location] at hlocation; subst hlocation
  case absent.absent => rfl
  case bool.bool x _ y =>
    have hvalue : x = y := by cases x <;> cases y <;> first | rfl | simp [detail] at hdetail
    rw [hvalue]
  case char.char => rw [char_detail_inj hdetail]
  case int.int => rw [toString_int_inj ((String.append_right_inj _).mp hdetail)]
  case float.float => rw [Numeral.Binary64.text_inj ht hu ((String.append_right_inj _).mp hdetail)]
  case string.string => rw [Text.escape_inj (quoted_inj hdetail)]
  case reference.reference => rw [(String.append_right_inj _).mp hdetail]
  case operation.operation =>
    cases hchildren
    rw [symbol_inj (quoted_inj hdetail)]
  case call.call =>
    cases hchildren
    rfl
  case definition.definition =>
    cases hchildren
    obtain ⟨rfl, rfl, rfl⟩ := definition_detail_inj ht.1 hu.1 hdetail
    rfl
  case function.function =>
    obtain ⟨hparameters, hbody⟩ := List.append_inj' hchildren rfl
    cases hbody
    obtain ⟨rfl, rfl⟩ := function_detail_inj ht.1 hu.1 hdetail
    rw [hparameters]
  case block.block =>
    cases hchildren
    rfl

/-! ## Characters of a header -/

theorem allPrintable_detail {t : Tree} (ht : t.IsSound) : AllPrintable t.detail := by
  have hblank : AllPrintable " " := by decide
  cases t with
  | bool x =>
      show AllPrintable (if x then " true" else " false")
      cases x <;> decide
  | char x =>
      have hopening : AllPrintable " '" := by decide
      exact (hopening.append (Text.allPrintable_escape _)).append (by decide)
  | int n => exact hblank.append (Text.allPrintable_int n)
  | float x => exact hblank.append (Numeral.Binary64.allPrintable_text ht)
  | string x =>
      have hopening : AllPrintable " \"" := by decide
      exact (hopening.append (Text.allPrintable_escape _)).append (by decide)
  | reference name => exact hblank.append (Text.allPrintable_identifier ht)
  | operation op =>
      have hopening : AllPrintable " '" := by decide
      exact (hopening.append (Text.allPrintable_symbol op)).append (by decide)
  | definition name type isConst =>
      have hword : AllPrintable (if isConst then " const " else " mut ") := by
        cases isConst <;> decide
      have hcolon : AllPrintable ": " := by decide
      exact ((hword.append (Text.allPrintable_identifier ht.1)).append hcolon).append
        (Text.allPrintable_identifier ht.2)
  | function name result =>
      have harrow : AllPrintable " -> " := by decide
      exact ((hblank.append (Text.allPrintable_identifier ht.1)).append harrow).append
        (Text.allPrintable_identifier ht.2.1)
  | absent => exact (nofun : AllPrintable "")
  | call => exact (nofun : AllPrintable "")
  | block => exact (nofun : AllPrintable "")

/-- A header of a sound node is printable. -/
theorem allPrintable_header {t : Tree} (ht : t.IsSound) : AllPrintable t.header := by
  have hkind : AllPrintable t.kindName := by
    have htable : ∀ name ∈ kindNames.flatten, AllPrintable name := by decide +kernel
    exact htable _ t.kindName_mem
  have hopening : AllPrintable " (" := by decide
  exact (((hkind.append (allPrintable_detail ht)).append hopening).append
    (Text.allPrintable_location _)).append (by decide)

/-- A header begins with a letter. -/
theorem stopsAt_header (t : Tree) : StopsAt (· == ' ') t.header.toList := by
  have htable : ∀ name ∈ kindNames.flatten, name.toList ≠ [] ∧
      StopsAt (· == ' ') name.toList := by
    decide +kernel
  obtain ⟨hne, hstop⟩ := htable _ t.kindName_mem
  rw [toList_header, List.append_assoc]
  cases hkind : t.kindName.toList with
  | nil => exact absurd hkind hne
  | cons c cs =>
      rw [hkind] at hstop
      exact hstop

end Tree

end ExprLang
