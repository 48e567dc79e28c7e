import ExprLang.Cursor.Reading

set_option autoImplicit false

/-! # Gaps

A gap is a row of blanks and comments, and a comment goes up to the end of its line. `IsGap rest
gap` says so of a text `gap` in front of `rest`; what is ahead matters, because a comment at the
end of the gap must not go on in it. `isLongestGap_iff` finds the longest gap by looking at one
character, and `Cursor.skipGap_of_isLongestGap` says that a cursor skips it.
-/

namespace ExprLang

/-- The class `p` does not go on in what is ahead. -/
def StopsAt (p : Char → Bool) (rest : List Char) : Prop := ∀ c ∈ rest.head?, p c = false

@[simp] theorem stopsAt_nil (p : Char → Bool) : StopsAt p [] := by
  intro c hc
  cases hc

@[simp] theorem stopsAt_cons {p : Char → Bool} {c : Char} {cs : List Char} :
    StopsAt p (c :: cs) ↔ p c = false := by
  simp [StopsAt]

instance (p : Char → Bool) : (rest : List Char) → Decidable (StopsAt p rest)
  | [] => .isTrue (stopsAt_nil p)
  | c :: _ => decidable_of_iff (p c = false) stopsAt_cons.symm

theorem takeWhile_append_of_stopsAt {p : Char → Bool} {run rest : List Char}
    (hrun : ∀ c ∈ run, p c = true) (hrest : StopsAt p rest) :
    (run ++ rest).takeWhile p = run := by
  rw [List.takeWhile_append_of_pos hrun]
  cases rest with
  | nil => simp
  | cons c cs => simp [stopsAt_cons.mp hrest]

theorem dropWhile_append_of_stopsAt {p : Char → Bool} {run rest : List Char}
    (hrun : ∀ c ∈ run, p c = true) (hrest : StopsAt p rest) :
    (run ++ rest).dropWhile p = rest := by
  rw [List.dropWhile_append_of_pos hrun]
  cases rest with
  | nil => rfl
  | cons c cs => simp [stopsAt_cons.mp hrest]

theorem stopsAt_dropWhile (p : Char → Bool) (xs : List Char) : StopsAt p (xs.dropWhile p) := by
  induction xs with
  | nil => simp
  | cons x xs ih =>
      by_cases hx : p x = true
      · rwa [List.dropWhile_cons_of_pos hx]
      · rw [List.dropWhile_cons_of_neg hx, stopsAt_cons]
        exact Bool.eq_false_iff.mpr hx

/-- The characters of a line. -/
def inLine (c : Char) : Bool := c != '\n'

/-- The characters that a gap begins with. -/
def beginsGap (c : Char) : Bool := CharClass.isBlank c || CharClass.isCommentStart c

/-- The text is a gap when `rest` is ahead. -/
inductive IsGap (rest : List Char) : List Char → Prop where
  | nil : IsGap rest []
  | blank {c : Char} {gap : List Char} : CharClass.isBlank c = true → IsGap rest gap →
      IsGap rest (c :: gap)
  /-- A comment is all of its line, so a line feed or the end of the text is behind it. -/
  | comment {c : Char} {line gap : List Char} : CharClass.isCommentStart c = true →
      (∀ x ∈ line, inLine x = true) → StopsAt inLine (gap ++ rest) → IsGap rest gap →
      IsGap rest (c :: (line ++ gap))

/-- The text is a gap, and no gap goes further into what is ahead. -/
def IsLongestGap (rest gap : List Char) : Prop :=
  IsGap rest gap ∧ ∀ gap' rest' : List Char, gap' ++ rest' = gap ++ rest → IsGap rest' gap' →
    gap'.length ≤ gap.length

/-! ## Every text begins with one longest gap -/

theorem isBlank_of_isCommentStart {c : Char} (hc : CharClass.isCommentStart c = true) :
    CharClass.isBlank c = false := by
  have hsharp : c = '#' := by simpa [CharClass.isCommentStart] using hc
  rw [hsharp]
  decide

/-- A text splits into a gap and what cannot go on with the gap. -/
theorem exists_gap (xs : List Char) :
    ∃ gap rest, xs = gap ++ rest ∧ IsGap rest gap ∧ StopsAt beginsGap rest := by
  -- on the length, since a comment takes more than one character
  induction hn : xs.length using Nat.strongRecOn generalizing xs with
  | ind n ih =>
      cases xs with
      | nil => exact ⟨[], [], rfl, .nil, stopsAt_nil _⟩
      | cons x xs =>
          by_cases hblank : CharClass.isBlank x = true
          · obtain ⟨gap, rest, rfl, hgap, hrest⟩ :=
              ih xs.length (by simp [← hn]) xs rfl
            exact ⟨x :: gap, rest, rfl, .blank hblank hgap, hrest⟩
          by_cases hcomment : CharClass.isCommentStart x = true
          · -- the comment takes its line, and the gap goes on behind it
            have hline : xs.takeWhile inLine ++ xs.dropWhile inLine = xs :=
              List.takeWhile_append_dropWhile
            have hshort : (xs.dropWhile inLine).length ≤ xs.length :=
              (List.dropWhile_sublist inLine).length_le
            obtain ⟨gap, rest, hsplit, hgap, hrest⟩ :=
              ih (xs.dropWhile inLine).length (by simp only [← hn, List.length_cons]; omega) _ rfl
            refine ⟨x :: (xs.takeWhile inLine ++ gap), rest, ?_, ?_, hrest⟩
            · rw [List.cons_append, List.append_assoc, ← hsplit, hline]
            · refine .comment hcomment (fun c hc => ?_) ?_ hgap
              · exact List.all_eq_true.mp List.all_takeWhile c hc
              · rw [← hsplit]
                exact stopsAt_dropWhile inLine xs
          · exact ⟨[], x :: xs, rfl, .nil, by simp [beginsGap, hblank, hcomment]⟩

namespace Cursor

/-- Inside a comment the rest of the line is skipped. -/
theorem skipGapFrom_line {line : List Char} (hline : ∀ c ∈ line, inLine c = true)
    (l : Location) (rest : List Char) :
    skipGapFrom true l (line ++ rest) = skipGapFrom true (l.after line) rest := by
  induction line generalizing l with
  | nil => rfl
  | cons c cs ih =>
      have hc : (c != '\n') = true := hline c (List.mem_cons_self ..)
      have hcs : ∀ d ∈ cs, inLine d = true := fun d hd => hline d (List.mem_cons_of_mem c hd)
      rw [List.cons_append, Location.after_cons, ← ih hcs]
      simp [skipGapFrom, hc]

/-- At the end of a line it does not matter whether a comment was there. -/
theorem skipGapFrom_of_stopsAt {rest : List Char} (hrest : StopsAt inLine rest) (l : Location) :
    skipGapFrom true l rest = skipGapFrom false l rest := by
  cases rest with
  | nil => rfl
  | cons c cs =>
      have hc : inLine c = false := stopsAt_cons.mp hrest
      unfold inLine at hc
      simp [skipGapFrom, hc]

/-- A gap is skipped in any case. -/
theorem skipGapFrom_gap {gap rest : List Char} (hgap : IsGap rest gap) (l : Location) :
    skipGapFrom false l (gap ++ rest) = skipGapFrom false (l.after gap) rest := by
  induction hgap generalizing l with
  | nil => rfl
  | blank hc _ ih =>
      rw [List.cons_append, Location.after_cons, ← ih]
      simp [skipGapFrom, hc]
  | comment hc hline hstop _ ih =>
      have hblank := isBlank_of_isCommentStart hc
      rw [List.cons_append, List.append_assoc, Location.after_cons, Location.after_append, ← ih,
        ← skipGapFrom_of_stopsAt hstop, ← skipGapFrom_line hline]
      simp [skipGapFrom, hc, hblank]

/-- Nothing is skipped where no gap begins. -/
theorem skipGapFrom_nothing {rest : List Char} (hrest : StopsAt beginsGap rest) (l : Location) :
    skipGapFrom false l rest = ⟨rest, l⟩ := by
  cases rest with
  | nil => rfl
  | cons c cs =>
      have hc := stopsAt_cons.mp hrest
      simp only [beginsGap, Bool.or_eq_false_iff] at hc
      simp [skipGapFrom, hc.1, hc.2]

end Cursor

/-- A gap is as long as possible if and only if no gap begins behind it. -/
theorem isLongestGap_iff {rest gap : List Char} :
    IsLongestGap rest gap ↔ IsGap rest gap ∧ StopsAt beginsGap rest := by
  -- both ways compare two gaps of one text, where skipping the one skips the other
  have hbound : ∀ {gap rest gap' rest' : List Char}, gap' ++ rest' = gap ++ rest →
      IsGap rest gap → StopsAt beginsGap rest → IsGap rest' gap' → gap'.length ≤ gap.length := by
    intro gap rest gap' rest' hsame hgap hrest hgap'
    have hskip := Cursor.skipGapFrom_gap hgap .start
    rw [Cursor.skipGapFrom_nothing hrest, ← hsame, Cursor.skipGapFrom_gap hgap'] at hskip
    have hle := Cursor.skipGapFrom_length_le rest' false (Location.start.after gap')
    rw [hskip] at hle
    have hlength := congrArg List.length hsame
    simp only [List.length_append] at hlength hle
    omega
  constructor
  · rintro ⟨hgap, hlongest⟩
    obtain ⟨gap', rest', hsplit, hgap', hrest'⟩ := exists_gap (gap ++ rest)
    have hle := hlongest gap' rest' hsplit.symm hgap'
    have hge := hbound hsplit hgap' hrest' hgap
    obtain ⟨-, hrest⟩ := List.append_inj hsplit (Nat.le_antisymm hge hle)
    exact ⟨hgap, hrest ▸ hrest'⟩
  · rintro ⟨hgap, hrest⟩
    exact ⟨hgap, fun gap' rest' hsame hgap' => hbound hsame hgap hrest hgap'⟩

/-- Every text begins with a longest gap. -/
theorem exists_longestGap (xs : List Char) :
    ∃ gap rest, xs = gap ++ rest ∧ IsLongestGap rest gap := by
  obtain ⟨gap, rest, hsplit, hgap⟩ := exists_gap xs
  exact ⟨gap, rest, hsplit, isLongestGap_iff.mpr hgap⟩

/-- A cursor skips the longest gap. -/
theorem Cursor.skipGap_of_isLongestGap {rest gap : List Char} (hgap : IsLongestGap rest gap)
    (l : Location) : skipGap ⟨gap ++ rest, l⟩ = ⟨rest, l.after gap⟩ := by
  obtain ⟨hgap, hrest⟩ := isLongestGap_iff.mp hgap
  unfold skipGap
  rw [skipGapFrom_gap hgap, skipGapFrom_nothing hrest]

/-! ## Gaps that are gaps everywhere -/

/-- The text is a gap whatever is ahead: every comment in it has its line feed. -/
inductive IsClosedGap : List Char → Prop where
  | nil : IsClosedGap []
  | blank {c : Char} {gap : List Char} : CharClass.isBlank c = true → IsClosedGap gap →
      IsClosedGap (c :: gap)
  | comment {c : Char} {line gap : List Char} : CharClass.isCommentStart c = true →
      (∀ x ∈ line, inLine x = true) → IsClosedGap gap →
      IsClosedGap (c :: (line ++ '\n' :: gap))

theorem IsClosedGap.isGap {gap : List Char} (h : IsClosedGap gap) (rest : List Char) :
    IsGap rest gap := by
  induction h with
  | nil => exact .nil
  | blank hc _ ih => exact .blank hc ih
  | comment hc hline _ ih =>
      exact .comment hc hline (stopsAt_cons.mpr (by decide)) (.blank (by decide) ih)

theorem IsClosedGap.head {gap : List Char} (h : IsClosedGap gap) :
    ∀ c ∈ gap.head?, beginsGap c = true := by
  intro c hc
  cases h with
  | nil => cases hc
  | blank hblank =>
      cases hc
      rw [beginsGap, hblank, Bool.true_or]
  | comment hcomment =>
      cases hc
      rw [beginsGap, hcomment, Bool.or_true]

end ExprLang
