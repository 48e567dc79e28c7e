import ExprLang.Proofs.Rendering.Headers

set_option autoImplicit false

/-! # Trees as text

The text of a tree has one line for each node, and it tells the tree. Lines are told apart because
headers stay on one line, and a line tells the depth and the header of its node because no header
begins with a blank (`Row.readLabel_line`). The depths tell the tree: below a node is everything up
to the next row that is not deeper, so forests can be taken off the front of any rows that end them
(`Tree.labelsAll_append_inj`).

Sound trees agree only if they are equal (`Tree.same_iff_eq`), which is why `rendering_is_faithful`
says of parsed trees that they agree if and only if their texts are equal.
-/

namespace ExprLang

open Numeral (Binary64)

namespace Tree

/-! ## Agreement of sound trees -/

theorem sameAll_iff_eq {ts us : List Tree}
    (h : ∀ t ∈ ts, ∀ u ∈ us, t.same u = true ↔ t = u) : sameAll ts us = true ↔ ts = us := by
  induction ts generalizing us with
  | nil => cases us <;> simp [sameAll]
  | cons t ts ih =>
      cases us with
      | nil => simp [sameAll]
      | cons u us =>
          have hhead := h t (List.mem_cons_self ..) u (List.mem_cons_self ..)
          have htail := ih fun t ht u hu =>
            h t (List.mem_cons_of_mem _ ht) u (List.mem_cons_of_mem _ hu)
          rw [sameAll, Bool.and_eq_true, hhead, htail, List.cons.injEq]

/-- Sound trees agree only with themselves. -/
theorem same_iff_eq {t u : Tree} (ht : t.Every IsSound) (hu : u.Every IsSound) :
    t.same u = true ↔ t = u := by
  induction ht generalizing u with
  | @intro t ht _parts ih =>
      obtain ⟨hu, hbelow⟩ := hu
      have hone : ∀ x ∈ t.children, ∀ y ∈ u.children, x.same y = true ↔ x = y :=
        fun x hx y hy => ih x hx (hbelow y hy)
      -- trees of two kinds do not agree, and what has no children is compared at once
      cases t <;> cases u <;> try (simp [same]; done)
      case float.float x l y m =>
        rw [same, Bool.and_eq_true, Binary64.same_iff_eq ht hu, beq_iff_eq, float.injEq]
      case operation.operation op left right l op' left' right' l' =>
        have hleft := hone left (by simp [children]) left' (by simp [children])
        have hright := hone right (by simp [children]) right' (by simp [children])
        simp only [same, Bool.and_eq_true, beq_iff_eq, hleft, hright, operation.injEq, and_assoc]
      case call.call callee arguments l callee' arguments' l' =>
        have hcallee := hone callee (List.mem_cons_self ..) callee' (List.mem_cons_self ..)
        have harguments := sameAll_iff_eq fun x hx y hy =>
          hone x (List.mem_cons_of_mem callee hx) y (List.mem_cons_of_mem callee' hy)
        simp only [same, Bool.and_eq_true, beq_iff_eq, hcallee, harguments, call.injEq, and_assoc]
      case definition.definition name type k v l name' type' k' v' l' =>
        have hvalue := hone v (List.mem_cons_self ..) v' (List.mem_cons_self ..)
        simp only [same, Bool.and_eq_true, beq_iff_eq, hvalue, definition.injEq, and_assoc]
      case function.function name result ps b l name' result' ps' b' l' =>
        have hparameters := sameAll_iff_eq fun x hx y hy =>
          hone x (List.mem_append_left [b] hx) y (List.mem_append_left [b'] hy)
        have hbody := hone b (by simp [children]) b' (by simp [children])
        simp only [same, Bool.and_eq_true, beq_iff_eq, hparameters, hbody, function.injEq,
          and_assoc]
      case block.block statements l statements' l' =>
        have hstatements : sameAll statements statements' = true ↔ statements = statements' :=
          sameAll_iff_eq hone
        rw [same, Bool.and_eq_true, hstatements, beq_iff_eq, block.injEq]

/-! ## Rows -/

theorem outlineAll_eq_flatMap (depth : Nat) (ts : List Tree) :
    outlineAll depth ts = ts.flatMap (outline depth) := by
  induction ts with
  | nil => rfl
  | cons t ts ih => rw [outlineAll, ih, List.flatMap_cons]

/-- The rows of a tree are its nodes. -/
theorem Every.of_mem_outline {P : Tree → Prop} {t : Tree} (h : t.Every P) {depth : Nat} {r : Row}
    (hr : r ∈ t.outline depth) : P r.tree := by
  induction h generalizing depth with
  | @intro t hP _ ih =>
      rw [outline_eq, outlineAll_eq_flatMap, List.mem_cons, List.mem_flatMap] at hr
      rcases hr with rfl | ⟨x, hx, hr⟩
      · exact hP
      · exact ih x hx hr

end Tree

/-- What the line of a row says. -/
def Row.label (r : Row) : Nat × String := (r.depth, r.tree.header)

namespace Tree

/-- What the lines say of trees that stand at one depth, one behind the other. -/
def labelsAll (depth : Nat) (ts : List Tree) : List (Nat × String) :=
  (outlineAll depth ts).map Row.label

@[simp] theorem labelsAll_nil (depth : Nat) : labelsAll depth [] = [] := rfl

@[simp] theorem labelsAll_cons (depth : Nat) (t : Tree) (ts : List Tree) :
    labelsAll depth (t :: ts) =
      (depth, t.header) :: (labelsAll (depth + 1) t.children ++ labelsAll depth ts) := by
  simp [labelsAll, outlineAll, outline_eq, Row.label]

/-- The rows begin above the depth, if there are any. -/
def EndsAbove (depth : Nat) (rows : List (Nat × String)) : Prop :=
  ∀ r ∈ rows.head?, r.1 < depth

theorem EndsAbove.append {depth : Nat} {rows : List (Nat × String)} (h : EndsAbove depth rows)
    (ts : List Tree) : EndsAbove (depth + 1) (labelsAll depth ts ++ rows) := by
  intro r hr
  cases ts with
  | nil => exact Nat.lt_succ_of_lt (h r hr)
  | cons t ts =>
      rw [labelsAll_cons, List.cons_append, List.head?_cons, Option.mem_some] at hr
      subst hr
      exact Nat.lt_succ_self depth

/-- Rows above a depth do not begin with a row at the depth. -/
theorem EndsAbove.ne_append {depth : Nat} {rows : List (Nat × String)} (h : EndsAbove depth rows)
    (u : Tree) (us : List Tree) (rest : List (Nat × String)) :
    rows ≠ labelsAll depth (u :: us) ++ rest := by
  rintro rfl
  have hlt : depth < depth := h (depth, u.header) (by rw [labelsAll_cons]; rfl)
  exact Nat.lt_irrefl depth hlt

/-- A tree can be taken off in front of rows that end it. -/
def IsToldByRows (t : Tree) : Prop :=
  ∀ ⦃u : Tree⦄, u.Every IsSound → ∀ ⦃depth : Nat⦄ ⦃xs ys : List (Nat × String)⦄,
    EndsAbove (depth + 1) xs → EndsAbove (depth + 1) ys →
    labelsAll depth [t] ++ xs = labelsAll depth [u] ++ ys → t = u ∧ xs = ys

/-- If single trees can be taken off in front of rows that end them, so can forests. -/
theorem labelsAll_append_inj {ts us : List Tree} (hts : ∀ t ∈ ts, t.IsToldByRows)
    (hus : ∀ u ∈ us, u.Every IsSound) {depth : Nat} {xs ys : List (Nat × String)}
    (hxs : EndsAbove depth xs) (hys : EndsAbove depth ys)
    (h : labelsAll depth ts ++ xs = labelsAll depth us ++ ys) : ts = us ∧ xs = ys := by
  have hsplit : ∀ v vs, labelsAll depth (v :: vs) = labelsAll depth [v] ++ labelsAll depth vs := by
    intro v vs
    simp
  induction ts generalizing us with
  | nil =>
      cases us with
      | nil => exact ⟨rfl, h⟩
      | cons u us => exact absurd h (hxs.ne_append u us ys)
  | cons t ts ih =>
      cases us with
      | nil => exact absurd h.symm (hys.ne_append t ts xs)
      | cons u us =>
          obtain ⟨ht, hts'⟩ := List.forall_mem_cons.mp hts
          obtain ⟨hu, hus'⟩ := List.forall_mem_cons.mp hus
          rw [hsplit, hsplit u us, List.append_assoc, List.append_assoc] at h
          obtain ⟨hhead, hrest⟩ := ht hu (hxs.append ts) (hys.append us) h
          obtain ⟨htail, hend⟩ := ih hts' hus' hrest
          exact ⟨by rw [hhead, htail], hend⟩

theorem Every.isToldByRows {t : Tree} (ht : t.Every IsSound) : t.IsToldByRows := by
  induction ht with
  | @intro t ht _ ih =>
      intro u hu depth xs ys hxs hys h
      obtain ⟨hu, hbelow⟩ := hu
      simp only [labelsAll_cons, labelsAll_nil, List.append_nil, List.cons_append,
        List.cons.injEq, Prod.mk.injEq, true_and] at h
      obtain ⟨hheader, hrest⟩ := h
      -- what is below the nodes ends where the rows are not deeper
      obtain ⟨hchildren, hrest⟩ := labelsAll_append_inj ih hbelow hxs hys hrest
      exact ⟨eq_of_header ht hu hheader hchildren, hrest⟩

end Tree

/-! ## Lines -/

namespace Row

/-- What a line says. -/
def readLabel (line : List Char) : Nat × String :=
  ((line.takeWhile (· == ' ')).length / 2, String.ofList (line.dropWhile (· == ' ')))

theorem toList_line (r : Row) :
    r.line.toList = List.replicate (2 * r.depth) ' ' ++ r.tree.header.toList := by
  rw [line, String.toList_append, String.toList_ofList]

/-- A line tells the depth and the header, because no header begins with a blank. -/
theorem readLabel_line (r : Row) : readLabel r.line.toList = r.label := by
  have hblanks : ∀ c ∈ List.replicate (2 * r.depth) ' ', (c == ' ') = true := by
    intro c hc
    rw [List.eq_of_mem_replicate hc]
    decide
  have hheader := r.tree.stopsAt_header
  rw [readLabel, toList_line, takeWhile_append_of_stopsAt hblanks hheader,
    dropWhile_append_of_stopsAt hblanks hheader, List.length_replicate,
    Nat.mul_div_cancel_left _ (by decide), String.ofList_toList]
  rfl

theorem newline_not_mem_line {r : Row} (h : r.tree.IsSound) : '\n' ∉ r.line.toList := by
  rw [toList_line, List.mem_append]
  rintro (hblank | hheader)
  · have heq := List.eq_of_mem_replicate hblank
    revert heq
    decide
  · exact not_mem_of_forall (Tree.allPrintable_header h) (by decide) hheader

end Row

theorem splitOn_lines {lines : List (List Char)} (h : ∀ l ∈ lines, '\n' ∉ l) :
    (lines.flatMap (· ++ ['\n'])).splitOn '\n' = lines ++ [[]] := by
  induction lines with
  | nil => exact List.splitOn_nil '\n'
  | cons l lines ih =>
      obtain ⟨hl, hlines⟩ := List.forall_mem_cons.mp h
      rw [List.flatMap_cons, List.append_assoc, List.singleton_append,
        List.splitOn_append_cons_self_of_not_mem hl, ih hlines, List.cons_append]

/-! ## Texts -/

namespace Tree

/-- The text of a sound tree falls into the lines of its rows. -/
theorem splitOn_render {t : Tree} (ht : t.Every IsSound) :
    t.render.toList.splitOn '\n' = (t.outline 0).map (·.line.toList) ++ [[]] := by
  have hlines : ∀ l ∈ (t.outline 0).map (·.line.toList), '\n' ∉ l := by
    rw [List.forall_mem_map]
    exact fun r hr => Row.newline_not_mem_line (ht.of_mem_outline hr)
  have htext : t.render.toList = ((t.outline 0).map (·.line.toList)).flatMap (· ++ ['\n']) := by
    rw [render, String.toList_join, List.flatMap_map, List.flatMap_map]
    simp only [String.toList_append]
    rfl
  rw [htext, splitOn_lines hlines]

/-- The text of a sound tree tells the tree. -/
theorem render_inj {t u : Tree} (ht : t.Every IsSound) (hu : u.Every IsSound)
    (h : t.render = u.render) : t = u := by
  have hlabels : ∀ v : Tree, ((v.outline 0).map (·.line.toList)).map Row.readLabel =
      labelsAll 0 [v] := by
    intro v
    rw [List.map_map, labelsAll, outlineAll, outlineAll, List.append_nil]
    exact List.map_congr_left fun r _ => r.readLabel_line
  have hlines := splitOn_render ht
  rw [h, splitOn_render hu] at hlines
  have hrows := congrArg (List.map Row.readLabel) (List.append_cancel_right hlines)
  rw [hlabels, hlabels] at hrows
  have hend : EndsAbove 1 [] := fun a ha => by cases ha
  refine (ht.isToldByRows hu hend hend ?_).1
  rw [List.append_nil, List.append_nil, hrows]

end Tree

theorem every_isSound_of_parse {text : String} {t : Tree} (h : parse text = .ok t) :
    t.Every Tree.IsSound := by
  obtain ⟨r, hparses⟩ := parse_eq_ok_iff.mp h
  exact (hparses.expresses (TokenStream.allWritable_ofCursor _)).1.every_isSound

/-- Parsed trees agree if and only if their texts are equal. The text of a parsed tree has one line
for each row of its outline, each with its end: two blanks for each step of depth, and a header that
does not begin with a blank. The outline has a node before what is below it, and the children in
their order one step deeper. -/
theorem rendering_is_faithful {text text' : String} {t u : Tree} (ht : parse text = .ok t)
    (hu : parse text' = .ok u) :
    (t.same u = true ↔ t.render = u.render) ∧
      t.render.toList.splitOn '\n' = (t.outline 0).map (fun r =>
        List.replicate (2 * r.depth) ' ' ++ r.tree.header.toList) ++ [[]] ∧
      (∀ r ∈ t.outline 0, ∀ c ∈ r.tree.header.toList.head?, c ≠ ' ') ∧
      ∀ (depth : Nat) (x : Tree),
        x.outline depth = ⟨depth, x⟩ :: x.children.flatMap (Tree.outline (depth + 1)) := by
  have ht := every_isSound_of_parse ht
  have hu := every_isSound_of_parse hu
  refine ⟨?_, ?_, ?_, ?_⟩
  · rw [Tree.same_iff_eq ht hu]
    exact ⟨congrArg Tree.render, Tree.render_inj ht hu⟩
  · rw [Tree.splitOn_render ht]
    simp only [Row.toList_line]
  · intro r _ c hc
    exact beq_eq_false_iff_ne.mp (r.tree.stopsAt_header c hc)
  · intro depth x
    rw [Tree.outline_eq, Tree.outlineAll_eq_flatMap]

/-- The second text has a blank more. -/
theorem rendering_is_faithful_quote :
    let t : Tree := .block [.char '"' ⟨1, 1⟩] ⟨1, 1⟩
    let u : Tree := .block [.char '"' ⟨1, 2⟩] ⟨1, 2⟩
    parse "'\"';" = .ok t ∧ parse " '\"';" = .ok u ∧
      (t.same u = true ↔ t.render = u.render) ∧
      t.render = "PROG (1:1)\n  CHAR '\\\"' (1:1)\n" := by
  intro t u
  have ht : parse "'\"';" = .ok t := by with_unfolding_all rfl
  have hu : parse " '\"';" = .ok u := by with_unfolding_all rfl
  exact ⟨ht, hu, (rendering_is_faithful ht hu).1, by decide +kernel⟩

end ExprLang
