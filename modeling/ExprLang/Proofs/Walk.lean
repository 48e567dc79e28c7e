import ExprLang.Proofs.Concatenation
import ExprLang.Proofs.LookAhead
import Mathlib.Data.List.DropRight
import Mathlib.Data.List.Induction

set_option autoImplicit false

/-! # Walking over a text

While a session is among characters it stands at some offset of its text, and keeps another one.
`Location.ofOffset` says which place an offset is, by counting the line feeds in front of it and the
characters behind the last of them; `Cursor.ofOffset` is the cursor there. Both are what a cursor
comes to that has moved over the front of the text, in whatever pieces (`Cursor.ofOffset_add`).

`Session.Moves` says what each step answers and how it moves the two offsets, and a row of such
steps is a walk (`Session.Walks`). Every session that keeps to the steps among characters is one
(`Session.exists_walks`), so what holds of walks holds of sessions: going back restores what was
kept, and between two returns the pieces that were read make up the text that was passed.
-/

namespace ExprLang

/-! ## Places of offsets -/

namespace Location

/-- The place of the offset `i` in a text. -/
def ofOffset (source : List Char) (i : Nat) : Location :=
  ⟨1 + (source.take i).count '\n', 1 + ((source.take i).rtakeWhile inLine).length⟩

theorem column_start_after (text : List Char) :
    (start.after text).column = 1 + (text.rtakeWhile inLine).length := by
  induction text using List.reverseRecOn with
  | nil => rfl
  | append_singleton text c ih =>
      rw [after_append, after_cons, after_nil, advance, List.rtakeWhile_concat]
      by_cases hc : c = '\n'
      · simp [hc, inLine]
      · simp [hc, inLine, ih]
        omega

/-- Moving over the text in front of an offset leads to its place. -/
theorem start_after_take (source : List Char) (i : Nat) :
    start.after (source.take i) = ofOffset source i := by
  have hline := line_after start (source.take i)
  have hcolumn := column_start_after (source.take i)
  unfold ofOffset
  rw [← hcolumn]
  exact congrArg (Location.mk · _) hline

theorem ofOffset_after (source : List Char) (i n : Nat) :
    (ofOffset source i).after ((source.drop i).take n) = ofOffset source (i + n) := by
  rw [← start_after_take, ← start_after_take, ← after_append, List.take_add]

/-- Later offsets are later places. -/
theorem ofOffset_lt {source : List Char} {i j : Nat} (hij : i < j) (hj : j ≤ source.length) :
    ofOffset source i < ofOffset source j := by
  have hne : (source.drop i).take (j - i) ≠ [] := by
    rw [← List.length_pos_iff, List.length_take, List.length_drop]
    omega
  have hj : i + (j - i) = j := by omega
  rw [← hj, ← ofOffset_after]
  exact lt_after _ hne

end Location

/-! ## Cursors at offsets -/

/-- The run is as long as a run of characters that satisfy `p` can be at the front of the text. -/
def IsLongestRun (p : Char → Bool) (text run : List Char) : Prop :=
  run <+: text ∧ (∀ c ∈ run, p c = true) ∧
    ∀ run', run' <+: text → (∀ c ∈ run', p c = true) → run'.length ≤ run.length

theorem isLongestRun_takeWhile (p : Char → Bool) (text : List Char) :
    IsLongestRun p text (text.takeWhile p) := by
  refine ⟨List.takeWhile_prefix p, fun c hc => List.all_eq_true.mp List.all_takeWhile c hc, ?_⟩
  rintro run' ⟨rest, rfl⟩ hrun'
  rw [List.takeWhile_append_of_pos hrun', List.length_append]
  exact Nat.le_add_right _ _

namespace Cursor

/-- The cursor at the offset `i` of a text. -/
def ofOffset (source : List Char) (i : Nat) : Cursor := ⟨source.drop i, .ofOffset source i⟩

variable {source : List Char} {i : Nat}

theorem ofOffset_zero (text : String) : ofOffset text.toList 0 = ofText text := by
  rw [ofOffset, ← Location.start_after_take]
  rfl

/-- Behind a piece of what is ahead, the cursor is so much further on. -/
theorem ofOffset_add {piece rest : List Char} (h : source.drop i = piece ++ rest) :
    ⟨rest, (Location.ofOffset source i).after piece⟩ = ofOffset source (i + piece.length) := by
  have hpiece : piece = (source.drop i).take piece.length := by
    rw [h, List.take_left]
  have hrest : rest = source.drop (i + piece.length) := by
    rw [← List.drop_drop, h, List.drop_left]
  have hlocation := Location.ofOffset_after source i piece.length
  rw [← hpiece] at hlocation
  rw [ofOffset, ← hlocation, ← hrest]

theorem peek_ofOffset : (ofOffset source i).peek = source[i]? := by
  rw [peek, ofOffset, List.head?_drop]

theorem isAtEnd_ofOffset (hi : i ≤ source.length) :
    (ofOffset source i).isAtEnd = decide (i = source.length) := by
  rw [isAtEnd, ofOffset, Bool.eq_iff_iff, List.isEmpty_iff, List.drop_eq_nil_iff, decide_eq_true_eq]
  omega

theorem next_ofOffset {c : Char} (h : source[i]? = some c) :
    (ofOffset source i).next = (some c, ofOffset source (i + 1)) := by
  obtain ⟨hi, hc⟩ := List.getElem?_eq_some_iff.mp h
  have hdrop : source.drop i = [c] ++ source.drop (i + 1) := by
    rw [List.drop_eq_getElem_cons hi, hc]
    rfl
  have hnext := ofOffset_add hdrop
  rw [ofOffset, hdrop]
  exact congrArg (Prod.mk (some c)) hnext

theorem next_ofOffset_length : (ofOffset source source.length).next =
    (none, ofOffset source source.length) := by
  rw [ofOffset, List.drop_length]
  rfl

theorem readWhile_ofOffset (p : Char → Bool) :
    (ofOffset source i).readWhile p = ((source.drop i).takeWhile p,
      ofOffset source (i + ((source.drop i).takeWhile p).length)) :=
  congrArg (Prod.mk _) (ofOffset_add List.takeWhile_append_dropWhile.symm)

end Cursor

/-! ## Steps among characters -/

namespace Session

/-- The session among the characters of a text, at one offset and with another one kept. -/
def ofOffsets (source : List Char) (i j : Nat) : Session :=
  ⟨.characters (.ofOffset source i), .ofOffset source j⟩

/-- Does the step leave the session among characters, if it is there? -/
def Command.isWalk : Command → Bool
  | .peek | .next | .isAtEnd | .location | .save | .restore | .readWhile _ | .readUntil _ => true
  | .toTokens | .tokenize | .toPrograms | .program => false

/-- What a step answers at the offset `i` when `j` is kept, and the offsets at which it leaves the
session. -/
inductive Moves (source : List Char) (i j : Nat) : Command → Reply → Nat → Nat → Prop where
  | peek : Moves source i j .peek (.character source[i]?) i j
  | next {c : Char} : source[i]? = some c → Moves source i j .next (.character (some c)) (i + 1) j
  | nothing : i = source.length → Moves source i j .next (.character none) i j
  | isAtEnd : Moves source i j .isAtEnd (.truth (.ok (decide (i = source.length)))) i j
  | location : Moves source i j .location (.location (.ofOffset source i)) i j
  | save : Moves source i j .save .done i i
  | restore : Moves source i j .restore .done j j
  | readWhile {p : Char → Bool} {run : List Char} : IsLongestRun p (source.drop i) run →
      Moves source i j (.readWhile p) (.text run) (i + run.length) j
  | readUntil {p : Char → Bool} {run : List Char} :
      IsLongestRun (fun c => !p c) (source.drop i) run →
      Moves source i j (.readUntil p) (.text run) (i + run.length) j

/-- The characters that a step takes off the text. -/
def piece : Command × Reply → List Char
  | (.next, .character c) => c.toList
  | (_, .text run) => run
  | _ => []

variable {source : List Char} {i j i' j' : Nat}

/-- Every step among characters is a move. -/
theorem exists_moves (hi : i ≤ source.length) {k : Command} (hk : k.isWalk = true) :
    ∃ reply i' j', Moves source i j k reply i' j' ∧
      (ofOffsets source i j).step k = (reply, ofOffsets source i' j') := by
  cases k with
  | peek =>
      refine ⟨_, i, j, .peek, ?_⟩
      rw [← Cursor.peek_ofOffset]
      rfl
  | next =>
      cases hc : source[i]? with
      | some c =>
          refine ⟨_, i + 1, j, .next hc, ?_⟩
          simp only [step, ofOffsets, readCharacters, Cursor.next_ofOffset hc]
      | none =>
          have hlength : i = source.length := by
            rw [List.getElem?_eq_none_iff] at hc
            omega
          subst hlength
          refine ⟨_, source.length, j, .nothing rfl, ?_⟩
          simp only [step, ofOffsets, readCharacters, Cursor.next_ofOffset_length]
  | isAtEnd =>
      refine ⟨_, i, j, .isAtEnd, ?_⟩
      rw [← Cursor.isAtEnd_ofOffset hi]
      rfl
  | location => exact ⟨_, i, j, .location, rfl⟩
  | save => exact ⟨_, i, i, .save, rfl⟩
  | restore => exact ⟨_, j, j, .restore, rfl⟩
  | readWhile p =>
      refine ⟨_, _, j, .readWhile (isLongestRun_takeWhile p _), ?_⟩
      simp only [step, ofOffsets, readCharacters, Cursor.readWhile_ofOffset]
  | readUntil p =>
      refine ⟨_, _, j, .readUntil (isLongestRun_takeWhile _ _), ?_⟩
      simp only [step, ofOffsets, readCharacters, Cursor.readUntil, Cursor.readWhile_ofOffset]
  | _ => cases hk

namespace Moves

variable {k : Command} {reply : Reply}

theorem le_length (h : Moves source i j k reply i' j') (hi : i ≤ source.length)
    (hj : j ≤ source.length) : i' ≤ source.length ∧ j' ≤ source.length := by
  have hrun : ∀ {p : Char → Bool} {run : List Char}, IsLongestRun p (source.drop i) run →
      i + run.length ≤ source.length := by
    intro p run hrun
    have hle := hrun.1.length_le
    rw [List.length_drop] at hle
    omega
  cases h with
  | next hc => exact ⟨(List.getElem?_eq_some_iff.mp hc).1, hj⟩
  | save => exact ⟨hi, hi⟩
  | restore => exact ⟨hj, hj⟩
  | readWhile h => exact ⟨hrun h, hj⟩
  | readUntil h => exact ⟨hrun h, hj⟩
  | _ => exact ⟨hi, hj⟩

/-- Only keeping an offset changes which one is kept. -/
theorem kept_eq (h : Moves source i j k reply i' j') (hk : k ≠ .save) : j' = j := by
  cases h with
  | save => exact absurd rfl hk
  | _ => rfl

/-- Unless it goes back, a step passes the characters that it takes. -/
theorem piece_eq (h : Moves source i j k reply i' j') (hk : k ≠ .restore) :
    i' = i + (piece (k, reply)).length ∧ piece (k, reply) <+: source.drop i := by
  cases h with
  | next hc =>
      obtain ⟨hi, hc⟩ := List.getElem?_eq_some_iff.mp hc
      refine ⟨rfl, source.drop (i + 1), ?_⟩
      rw [List.drop_eq_getElem_cons hi, hc]
      rfl
  | restore => exact absurd rfl hk
  | readWhile h => exact ⟨rfl, h.1⟩
  | readUntil h => exact ⟨rfl, h.1⟩
  | _ => exact ⟨rfl, List.nil_prefix⟩

end Moves

/-! ## Walks -/

/-- The steps lead, with these replies, from two offsets to two offsets. -/
inductive Walks (source : List Char) : Nat → Nat → List (Command × Reply) → Nat → Nat → Prop where
  | nil {i j : Nat} : Walks source i j [] i j
  | cons {i j i' j' i'' j'' : Nat} {k : Command} {reply : Reply} {made : List (Command × Reply)} :
      Moves source i j k reply i' j' → Walks source i' j' made i'' j'' →
      Walks source i j ((k, reply) :: made) i'' j''

/-- A session that keeps to the steps among characters is a walk. -/
theorem exists_walks (hi : i ≤ source.length) (hj : j ≤ source.length) {ks : List Command}
    (hks : ∀ k ∈ ks, k.isWalk = true) :
    ∃ i' j', Walks source i j ((ofOffsets source i j).trace ks) i' j' ∧
      (ofOffsets source i j).after ks = ofOffsets source i' j' := by
  induction ks generalizing i j with
  | nil => exact ⟨i, j, .nil, rfl⟩
  | cons k ks ih =>
      obtain ⟨hk, hks⟩ := List.forall_mem_cons.mp hks
      obtain ⟨reply, i', j', hmoves, hstep⟩ := exists_moves (j := j) hi hk
      obtain ⟨hi', hj'⟩ := hmoves.le_length hi hj
      obtain ⟨i'', j'', hwalks, hafter⟩ := ih hi' hj' hks
      refine ⟨i'', j'', ?_, ?_⟩
      · rw [trace_cons, hstep]
        exact .cons hmoves hwalks
      · rw [after, hstep, hafter]

namespace Walks

variable {made : List (Command × Reply)}

theorem le_length (h : Walks source i j made i' j') (hi : i ≤ source.length)
    (hj : j ≤ source.length) : i' ≤ source.length ∧ j' ≤ source.length := by
  induction h with
  | nil => exact ⟨hi, hj⟩
  | cons hmoves _ ih =>
      obtain ⟨hi, hj⟩ := hmoves.le_length hi hj
      exact ih hi hj

/-- A walk that keeps nothing leaves what was kept. -/
theorem kept_eq (h : Walks source i j made i' j') (hmade : ∀ m ∈ made, m.1 ≠ .save) : j' = j := by
  induction h with
  | nil => rfl
  | cons hmoves _ ih =>
      obtain ⟨hk, hmade⟩ := List.forall_mem_cons.mp hmade
      rw [ih hmade, hmoves.kept_eq hk]

/-- The pieces that a walk takes make up the text that it passes, unless it goes back. -/
theorem pieces_eq (h : Walks source i j made i' j') (hmade : ∀ m ∈ made, m.1 ≠ .restore) :
    i ≤ i' ∧ made.flatMap piece = (source.drop i).take (i' - i) := by
  induction h with
  | nil => simp
  | @cons i j i₁ j₁ i' j' k reply made hmoves _ ih =>
      obtain ⟨hk, hmade⟩ := List.forall_mem_cons.mp hmade
      obtain ⟨hle, hpieces⟩ := ih hmade
      obtain ⟨rfl, rest, hrest⟩ := hmoves.piece_eq hk
      have hsplit : i' - i =
          (piece (k, reply)).length + (i' - (i + (piece (k, reply)).length)) := by
        omega
      have htail : source.drop (i + (piece (k, reply)).length) = rest := by
        rw [← List.drop_drop, ← hrest, List.drop_left]
      refine ⟨by omega, ?_⟩
      rw [List.flatMap_cons, hpieces, htail, ← hrest, hsplit, List.take_length_add_append]

end Walks

theorem forall_trace {s : Session} {ks : List Command} {P : Command → Prop}
    (h : ∀ k ∈ ks, P k) : ∀ m ∈ s.trace ks, P m.1 := by
  intro m hm
  apply h
  rw [← s.map_fst_trace ks]
  exact List.mem_map_of_mem hm

/-- A session tells that it is at the end exactly there. -/
theorem step_isAtEnd_iff (hi : i ≤ source.length) :
    ((ofOffsets source i j).step .isAtEnd).1 = .truth (.ok true) ↔ i = source.length := by
  show Reply.truth (.ok (Cursor.ofOffset source i).isAtEnd) = _ ↔ _
  rw [Cursor.isAtEnd_ofOffset hi]
  simp

/-- Nothing is ahead exactly at the end. -/
theorem step_peek_iff (hi : i ≤ source.length) :
    ((ofOffsets source i j).step .peek).1 = .character none ↔ i = source.length := by
  show Reply.character (Cursor.ofOffset source i).peek = _ ↔ _
  rw [Cursor.peek_ofOffset, Reply.character.injEq, List.getElem?_eq_none_iff]
  omega

/-- Nothing can be taken exactly at the end, and the session stays there. -/
theorem step_next_iff (hi : i ≤ source.length) :
    (ofOffsets source i j).step .next = (.character none, ofOffsets source i j) ↔
      i = source.length := by
  obtain ⟨reply, i', j', hmoves, hstep⟩ := exists_moves (j := j) hi (k := .next) rfl
  rw [hstep]
  cases hmoves with
  | next hc =>
      obtain ⟨hlt, -⟩ := List.getElem?_eq_some_iff.mp hc
      constructor
      · intro h
        cases congrArg Prod.fst h
      · intro hlength
        exact absurd hlength (Nat.ne_of_lt hlt)
  | nothing hlength => exact ⟨fun _ => hlength, fun _ => rfl⟩

/-- Going back leads to what was kept last. -/
theorem after_save_restore (hi : i ≤ source.length) {ks : List Command}
    (hks : ∀ k ∈ ks, k.isWalk = true) (hsave : .save ∉ ks) :
    ((ofOffsets source i j).step .save).2.after (ks ++ [.restore]) =
      ((ofOffsets source i j).step .save).2 := by
  obtain ⟨i', j', hwalks, hafter⟩ := exists_walks (j := i) hi hi hks
  obtain rfl : j' = i := hwalks.kept_eq (forall_trace fun k hk => ne_of_mem_of_not_mem hk hsave)
  show (ofOffsets source j' j').after (ks ++ [.restore]) = ofOffsets source j' j'
  rw [after_append, hafter]
  rfl

/-- What is read of a text without going back is the text that is passed. -/
theorem pieces_trace (hi : i ≤ source.length) (hj : j ≤ source.length) {ks : List Command}
    (hks : ∀ k ∈ ks, k.isWalk = true) (hrestore : .restore ∉ ks) :
    ∃ i' j', i ≤ i' ∧ i' ≤ source.length ∧
      (ofOffsets source i j).after ks = ofOffsets source i' j' ∧
      ((ofOffsets source i j).trace ks).flatMap piece = (source.drop i).take (i' - i) := by
  obtain ⟨i', j', hwalks, hafter⟩ := exists_walks hi hj hks
  obtain ⟨hle, hpieces⟩ :=
    hwalks.pieces_eq (forall_trace fun k hk => ne_of_mem_of_not_mem hk hrestore)
  exact ⟨i', j', hle, (hwalks.le_length hi hj).1, hafter, hpieces⟩

/-- After any steps among characters, a session stands at one offset of its text and keeps another
one, and every further step is a move. The end is where nothing is ahead and where nothing can be
taken. However often it is gone back to, what was kept last comes back as it was. As long as it is
not gone back, the pieces that are read make up the text between the offsets. The places of
different offsets are different, and in the order of the offsets. -/
theorem walk_keeps_its_place (text : String) {ks : List Command}
    (hks : ∀ k ∈ ks, k.isWalk = true) :
    let source := text.toList
    let s := (Session.ofText text).after ks
    ∃ i j, i ≤ source.length ∧ j ≤ source.length ∧ s = ofOffsets source i j ∧
      (∀ k, k.isWalk = true → ∃ reply i' j', Moves source i j k reply i' j' ∧
        s.step k = (reply, ofOffsets source i' j')) ∧
      ((s.step .isAtEnd).1 = .truth (.ok true) ↔ i = source.length) ∧
      ((s.step .isAtEnd).1 = .truth (.ok true) ↔ (s.step .peek).1 = .character none) ∧
      ((s.step .isAtEnd).1 = .truth (.ok true) ↔ s.step .next = (.character none, s)) ∧
      (∀ ys, (∀ k ∈ ys, k.isWalk = true) → .save ∉ ys →
        (s.step .save).2.after (ys ++ [.restore]) = (s.step .save).2) ∧
      (∀ ys, (∀ k ∈ ys, k.isWalk = true) → .restore ∉ ys →
        ∃ i' j', i ≤ i' ∧ i' ≤ source.length ∧ s.after ys = ofOffsets source i' j' ∧
          (s.trace ys).flatMap piece = (source.drop i).take (i' - i)) ∧
      ∀ m n, m < n → n ≤ source.length → Location.ofOffset source m < .ofOffset source n := by
  intro source s
  have hstart : Session.ofText text = ofOffsets source 0 0 := by
    rw [ofOffsets, Cursor.ofOffset_zero]
    rfl
  obtain ⟨i, j, hwalks, hs⟩ :=
    exists_walks (Nat.zero_le source.length) (Nat.zero_le source.length) hks
  obtain ⟨hi, hj⟩ := hwalks.le_length (Nat.zero_le _) (Nat.zero_le _)
  rw [← hstart] at hs
  change s = ofOffsets source i j at hs
  rw [hs]
  have hend := step_isAtEnd_iff (j := j) hi
  exact ⟨i, j, hi, hj, rfl, fun k hk => exists_moves hi hk, hend,
    hend.trans (step_peek_iff hi).symm, hend.trans (step_next_iff hi).symm,
    fun ys hys hsave => after_save_restore hi hys hsave,
    fun ys hys hrestore => pieces_trace hi hj hys hrestore,
    fun m n hmn hn => Location.ofOffset_lt hmn hn⟩

/-- Over the first line and back to behind its first character. -/
theorem walk_keeps_its_place_lines :
    let s := (Session.ofText "ab\nc").after [.next, .save, .readUntil (· == '\n'), .next]
    (s.step .location).1 = .location ⟨2, 1⟩ ∧
      (∃ i j, i ≤ 4 ∧ j ≤ 4 ∧ s = ofOffsets ['a', 'b', '\n', 'c'] i j) ∧
      (s.step .save).2.after ([.next, .isAtEnd, .restore, .readWhile (· == 'c')] ++ [.restore]) =
        (s.step .save).2 := by
  intro s
  have hks : ∀ k ∈ [Command.next, .save, .readUntil (· == '\n'), .next], k.isWalk = true := by
    simp [Command.isWalk]
  obtain ⟨i, j, hi, hj, hs, -, -, -, -, hback, -⟩ := walk_keeps_its_place "ab\nc" hks
  exact ⟨rfl, ⟨i, j, hi, hj, hs⟩, hback _ (by simp [Command.isWalk]) (by simp)⟩

end Session

end ExprLang
