import ExprLang.CommandLine
import Mathlib.Data.List.Induction

set_option autoImplicit false

/-! # What a run prints

The arguments are read from left to right, and reading stops at the first one that asks for help or
that is a second file name (`EndsAt`). Such a run ends with the usage, whatever stands behind that
argument and whatever files there are. All other runs (`Scans`) print the tokens or the tree of
their file if there is such a file, if it is a text, and if the text can be read; otherwise they
print nothing but a message. Where `--tokens` stands among the arguments does not matter, nor how
often.
-/

namespace ExprLang.CommandLine

/-! ## Arguments -/

def asksForHelp (argument : String) : Bool := argument = "-h" || argument = "--help"

/-- Is the argument no flag? -/
def isFileName (argument : String) : Bool := argument ≠ "--tokens" && !asksForHelp argument

def fileNames (arguments : List String) : List String := arguments.filter isFileName

/-- Reading ends at the argument if these are in front of it. -/
def EndsAt (before : List String) (argument : String) : Prop :=
  asksForHelp argument = true ∨ isFileName argument = true ∧ fileNames before ≠ []

/-- Reading ends at none of the arguments. -/
def Scans (arguments : List String) : Prop :=
  ∀ before argument after, arguments = before ++ argument :: after → ¬ EndsAt before argument

theorem fileNames_append_singleton (before : List String) (argument : String) :
    fileNames (before ++ [argument]) =
      fileNames before ++ if isFileName argument then [argument] else [] := by
  rw [fileNames, List.filter_append, fileNames, List.filter_cons, List.filter_nil]

instance (before : List String) (argument : String) : Decidable (EndsAt before argument) :=
  inferInstanceAs (Decidable (_ ∨ _ ∧ _))

theorem Scans.nil : Scans [] := by
  intro before argument after h
  simp at h

theorem scans_append_singleton {before : List String} {argument : String} :
    Scans (before ++ [argument]) ↔ Scans before ∧ ¬ EndsAt before argument := by
  constructor
  · intro h
    refine ⟨?_, h before argument [] rfl⟩
    rintro front x after rfl
    exact h front x (after ++ [argument]) (by simp)
  · rintro ⟨hbefore, hargument⟩ front x after h
    rcases List.eq_nil_or_concat after with rfl | ⟨after, last, rfl⟩
    · obtain ⟨rfl, hx⟩ := List.append_inj' h rfl
      rwa [← List.singleton_inj.mp hx]
    · rw [List.concat_eq_append, ← List.cons_append, ← List.append_assoc] at h
      obtain ⟨rfl, -⟩ := List.append_inj' h rfl
      exact hbefore front x after rfl

/-- Either reading ends at no argument, or there is a first one at which it ends. -/
theorem scans_or_endsAt (arguments : List String) :
    Scans arguments ∨ ∃ before argument after,
      arguments = before ++ argument :: after ∧ Scans before ∧ EndsAt before argument := by
  induction arguments using List.reverseRecOn with
  | nil => exact .inl .nil
  | append_singleton front last ih =>
      rcases ih with hfront | ⟨before, argument, after, rfl, hbefore, hends⟩
      · by_cases hlast : EndsAt front last
        · exact .inr ⟨front, last, [], rfl, hfront, hlast⟩
        · exact .inl (scans_append_singleton.mpr ⟨hfront, hlast⟩)
      · exact .inr ⟨before, argument, after ++ [last], by simp, hbefore, hends⟩

/-- A file name is no flag. -/
theorem flags_of_isFileName {argument : String} (h : isFileName argument = true) :
    argument ≠ "--tokens" ∧ asksForHelp argument = false := by
  simpa [isFileName] using h

theorem readArguments_tokens (file : Option String) (showTokens : Bool)
    (arguments : List String) :
    readArguments file showTokens ("--tokens" :: arguments) =
      readArguments file true arguments := by
  rw [readArguments.eq_def]
  exact if_pos rfl

theorem readArguments_help {argument : String} (h : asksForHelp argument = true)
    (file : Option String) (showTokens : Bool) (arguments : List String) :
    readArguments file showTokens (argument :: arguments) = .error .help := by
  have hflag : argument ≠ "--tokens" := by
    rintro rfl
    revert h
    decide
  rw [readArguments.eq_def]
  exact (if_neg hflag).trans (if_pos h)

theorem readArguments_fileName {argument : String} (h : isFileName argument = true)
    (file : Option String) (showTokens : Bool) (arguments : List String) :
    readArguments file showTokens (argument :: arguments) =
      match file with
      | none => readArguments (some argument) showTokens arguments
      | some _ => .error (.surplus argument) := by
  obtain ⟨hflag, hhelp⟩ := flags_of_isFileName h
  rw [readArguments.eq_def]
  exact (if_neg hflag).trans (if_neg (Bool.eq_false_iff.mp hhelp))

/-- Arguments at which reading does not end leave their file name and their wish behind. -/
theorem readArguments_of_scans {before : List String} (h : Scans before)
    (after : List String) :
    readArguments none false (before ++ after) =
      readArguments (fileNames before).head? (decide ("--tokens" ∈ before)) after := by
  -- from the last argument on, since it is the arguments in front that matter
  induction before using List.reverseRecOn generalizing after with
  | nil => rfl
  | append_singleton front last ih =>
      obtain ⟨hfront, hlast⟩ := scans_append_singleton.mp h
      rw [List.append_assoc, List.singleton_append, ih hfront, fileNames_append_singleton]
      by_cases hname : isFileName last = true
      · have hflag := (flags_of_isFileName hname).1
        have hfirst : fileNames front = [] := by
          by_contra hne
          exact hlast (.inr ⟨hname, hne⟩)
        rw [readArguments_fileName hname, hfirst, if_pos hname]
        simp [Ne.symm hflag]
      · have hhelp : asksForHelp last = false := by
          rw [Bool.eq_false_iff]
          exact fun hhelp => hlast (.inl hhelp)
        obtain rfl : last = "--tokens" := by
          by_contra hflag
          simp [isFileName, hflag, hhelp] at hname
        rw [readArguments_tokens, if_neg hname]
        simp

/-- Arguments at which reading does not end name at most one file. -/
theorem Scans.fileNames_eq {arguments : List String} (h : Scans arguments) :
    fileNames arguments = (fileNames arguments).head?.toList := by
  induction arguments using List.reverseRecOn with
  | nil => rfl
  | append_singleton front last ih =>
      obtain ⟨hfront, hlast⟩ := scans_append_singleton.mp h
      rw [fileNames_append_singleton]
      by_cases hname : isFileName last = true
      · have hfirst : fileNames front = [] := by
          by_contra hne
          exact hlast (.inr ⟨hname, hne⟩)
        rw [hfirst, if_pos hname]
        rfl
      · rw [if_neg hname, List.append_nil]
        exact ih hfront

/-- What the arguments ask for does not depend on where `--tokens` stands, if it stands
anywhere. -/
theorem readArguments_filter (file : Option String) (showTokens : Bool)
    (arguments : List String) :
    readArguments file showTokens arguments =
      readArguments file (showTokens || decide ("--tokens" ∈ arguments))
        (arguments.filter fun argument => argument ≠ "--tokens") := by
  induction arguments generalizing file showTokens with
  | nil => simp
  | cons argument arguments ih =>
      by_cases hflag : argument = "--tokens"
      · subst hflag
        rw [readArguments_tokens, ih]
        simp
      have hrest : ((argument :: arguments).filter fun argument => argument ≠ "--tokens") =
          argument :: arguments.filter fun argument => argument ≠ "--tokens" := by
        simp [hflag]
      rw [hrest]
      by_cases hhelp : asksForHelp argument = true
      · rw [readArguments_help hhelp, readArguments_help hhelp]
      have hname : isFileName argument = true := by simp [isFileName, hflag, hhelp]
      rw [readArguments_fileName hname, readArguments_fileName hname]
      cases file with
      | none =>
          show readArguments (some argument) showTokens arguments = _
          rw [ih]
          simp [Ne.symm hflag]
      | some first => rfl

/-! ## Runs -/

/-- The text is what is shown of the source: the texts of its tokens, one a line, or its tree. -/
def Shows (showTokens : Prop) (source text : String) : Prop :=
  (showTokens ∧ ∃ ts, tokenize source = .ok ts ∧
    text = String.join (ts.map fun t => t.text ++ "\n")) ∨
  (¬ showTokens ∧ ∃ t, parse source = .ok t ∧ text = t.render)

/-- The arguments name one file, that file is a text, and this is what is shown of it. -/
def Prints (lookup : String → Entry) (arguments : List String) (text : String) : Prop :=
  ∃ file content source, fileNames arguments = [file] ∧ lookup file = .file content ∧
    String.fromUTF8? content = some source ∧ Shows ("--tokens" ∈ arguments) source text

theorem display_eq_ok_iff {showTokens : Bool} {source text : String} :
    display showTokens source = .ok text ↔ Shows (showTokens = true) source text := by
  cases showTokens with
  | true =>
      cases htokens : tokenize source <;> simp [display, Shows, htokens, eq_comm]
  | false =>
      cases htree : parse source <;> simp [display, Shows, htree, eq_comm]

/-- What arguments ask for if reading ends at none of them. -/
theorem Scans.request {arguments : List String} (h : Scans arguments) :
    Request.ofArguments arguments =
      match (fileNames arguments).head? with
      | some file => .ok ⟨file, decide ("--tokens" ∈ arguments)⟩
      | none => .error .noFile := by
  have hread := readArguments_of_scans h []
  rw [List.append_nil] at hread
  rw [Request.ofArguments, hread]
  cases (fileNames arguments).head? <;> rfl

variable {lookup : String → Entry} {arguments : List String} {calledAs : Option String}

/-- The argument at which reading ends decides, and nothing behind it counts. -/
theorem run_of_endsAt {before : List String} {argument : String} (h : Scans before)
    (hends : EndsAt before argument) (after : List String) :
    run lookup (before ++ argument :: after) calledAs =
      ⟨1, "", (if asksForHelp argument then ""
        else "Error: unexpected argument '" ++ argument ++ "'\n") ++
          usage (calledAs.getD "leor")⟩ := by
  rw [run, Request.ofArguments, readArguments_of_scans h]
  rcases hends with hhelp | ⟨hname, hsecond⟩
  · rw [readArguments_help hhelp, if_pos hhelp, String.empty_append]
    rfl
  · obtain ⟨first, others, hfirst⟩ := List.exists_cons_of_ne_nil hsecond
    have hhelp := (flags_of_isFileName hname).2
    rw [readArguments_fileName hname, hfirst, if_neg (Bool.eq_false_iff.mp hhelp)]
    rfl

theorem run_of_prints {text : String} (h : Scans arguments)
    (hprints : Prints lookup arguments text) :
    run lookup arguments calledAs = ⟨0, text, ""⟩ := by
  obtain ⟨file, content, source, hnames, hfile, hsource, hshows⟩ := hprints
  have hdisplay : display (decide ("--tokens" ∈ arguments)) source = .ok text := by
    rw [display_eq_ok_iff]
    simpa using hshows
  simp only [run, h.request, hnames, List.head?_cons, hfile, runOn, hsource, hdisplay,
    Result.success]

theorem run_of_not_prints (h : Scans arguments)
    (hprints : ¬ ∃ text, Prints lookup arguments text) :
    ∃ message, message ≠ "" ∧ run lookup arguments calledAs = ⟨1, "", message⟩ := by
  cases hnames : (fileNames arguments).head? with
  | none =>
      refine ⟨"Error: No input file provided\n\n" ++ usage (calledAs.getD "leor"), by simp, ?_⟩
      simp only [run, h.request, hnames]
      rfl
  | some file =>
      have hsingle : fileNames arguments = [file] := by
        rw [h.fileNames_eq, hnames]
        rfl
      simp only [run, h.request, hnames]
      cases hfile : lookup file with
      | missing => exact ⟨_, by simp, rfl⟩
      | unreadable code kind message => exact ⟨_, by simp, rfl⟩
      | file content =>
          simp only [runOn]
          cases hsource : String.fromUTF8? content with
          | none => exact ⟨_, by simp, rfl⟩
          | some source =>
              cases hdisplay : display (decide ("--tokens" ∈ arguments)) source with
              | ok text =>
                  rw [display_eq_ok_iff, decide_eq_true_eq] at hdisplay
                  exact absurd ⟨text, file, content, source, hsingle, hfile, hsource, hdisplay⟩
                    hprints
              | error e => exact ⟨e.message ++ "\n", by simp, by simp only [hdisplay]; rfl⟩

/-- A run is all or nothing. Reading ends at a first argument, and then the run ends with the usage
of the program under the name it is called by, behind the name of the argument unless that asks for
help; or reading ends nowhere, and then the run prints what is shown of the one file that is named,
if there is such a text, and otherwise nothing but a message. `--tokens` counts once, wherever it
stands. -/
theorem run_all_or_nothing (lookup : String → Entry) (arguments : List String)
    (calledAs : Option String) :
    (Scans arguments ∨ ∃ before argument after,
      arguments = before ++ argument :: after ∧ Scans before ∧ EndsAt before argument) ∧
    (∀ before argument after, arguments = before ++ argument :: after → Scans before →
      EndsAt before argument → run lookup arguments calledAs = ⟨1, "",
        (if asksForHelp argument then ""
          else "Error: unexpected argument '" ++ argument ++ "'\n") ++
        ("Usage: " ++ calledAs.getD "leor" ++ " <file.leor> [--tokens]\n" ++
          "\n" ++
          "Options:\n" ++
          "  --tokens    print the token stream instead of the syntax tree\n" ++
          "\n" ++
          "Set RUST_LOG=trace to follow the lexer and parser.\n")⟩) ∧
    (Scans arguments →
      ((run lookup arguments calledAs).code = 0 ↔ ∃ text, Prints lookup arguments text) ∧
      (∀ text, Prints lookup arguments text → run lookup arguments calledAs = ⟨0, text, ""⟩) ∧
      ((run lookup arguments calledAs).code ≠ 0 →
        ∃ message, message ≠ "" ∧ run lookup arguments calledAs = ⟨1, "", message⟩)) ∧
    ∀ arguments', "--tokens" ∈ arguments → "--tokens" ∈ arguments' →
      (arguments'.filter fun argument => argument ≠ "--tokens") =
        (arguments.filter fun argument => argument ≠ "--tokens") →
        run lookup arguments' calledAs = run lookup arguments calledAs := by
  refine ⟨scans_or_endsAt arguments, ?_, fun h => ?_, ?_⟩
  · rintro before argument after rfl h hends
    exact run_of_endsAt h hends after
  · have hcode :
        (run lookup arguments calledAs).code = 0 ↔ ∃ text, Prints lookup arguments text := by
      constructor
      · intro hcode
        by_contra hprints
        obtain ⟨message, -, hrun⟩ := @run_of_not_prints _ _ calledAs h hprints
        rw [hrun] at hcode
        cases hcode
      · rintro ⟨text, hprints⟩
        rw [run_of_prints h hprints]
    refine ⟨hcode, fun text => run_of_prints h, fun hne => run_of_not_prints h ?_⟩
    rwa [← hcode]
  · intro arguments' hmem hmem' hsame
    rw [run, run, Request.ofArguments, Request.ofArguments, readArguments_filter none false
      arguments, readArguments_filter none false arguments', hsame, decide_eq_true hmem,
      decide_eq_true hmem']

/-- A second file name ends the run although help is asked for behind it. The tokens of a file are
printed although they have no tree, also if the flag comes late and twice; without it nothing is
printed. -/
theorem run_all_or_nothing_bracket :
    let lookup : String → Entry := fun name => if name = "a" then .file ")".toUTF8 else .missing
    run lookup ["a", "--tokens", "b", "-h"] (some "x") =
      ⟨1, "", "Error: unexpected argument 'b'\n" ++
        ("Usage: " ++ "x" ++ " <file.leor> [--tokens]\n" ++
          "\n" ++
          "Options:\n" ++
          "  --tokens    print the token stream instead of the syntax tree\n" ++
          "\n" ++
          "Set RUST_LOG=trace to follow the lexer and parser.\n")⟩ ∧
      run lookup ["--tokens", "a"] =
        ⟨0, "\x7bPUNC, ')', (1:1)\x7d\n\x7bEOF, '', (1:2)\x7d\n", ""⟩ ∧
      run lookup ["a", "--tokens", "--tokens"] = run lookup ["--tokens", "a"] ∧
      ∃ message, message ≠ "" ∧ run lookup ["a"] = ⟨1, "", message⟩ := by
  intro lookup
  have hflag : Scans ["--tokens", "a"] := scans_append_singleton.mpr
    ⟨scans_append_singleton.mpr ⟨.nil, by decide⟩, by decide⟩
  have hname : Scans ["a"] := scans_append_singleton.mpr ⟨.nil, by decide⟩
  have hboth : Scans ["a", "--tokens"] := scans_append_singleton.mpr ⟨hname, by decide⟩
  have hsource : String.fromUTF8? ")".toUTF8 = some ")" := by with_unfolding_all rfl
  have htokens : tokenize ")" = .ok [⟨.punctuation, ")", ⟨1, 1⟩⟩, .eof ⟨1, 2⟩] := by
    with_unfolding_all rfl
  have hparse : parse ")" = .error (.syntactic (.unexpectedToken ⟨.punctuation, ")", ⟨1, 1⟩⟩)) := by
    with_unfolding_all rfl
  have hprints : Prints lookup ["--tokens", "a"]
      "\x7bPUNC, ')', (1:1)\x7d\n\x7bEOF, '', (1:2)\x7d\n" :=
    ⟨"a", _, ")", by decide, rfl, hsource, .inl ⟨by decide, _, htokens, by with_unfolding_all rfl⟩⟩
  obtain ⟨-, hends, -, -⟩ := run_all_or_nothing lookup ["a", "--tokens", "b", "-h"] (some "x")
  obtain ⟨-, -, hscans, hsame⟩ := run_all_or_nothing lookup ["--tokens", "a"] none
  obtain ⟨-, -, hscans', -⟩ := run_all_or_nothing lookup ["a"] none
  refine ⟨hends ["a", "--tokens"] "b" ["-h"] rfl hboth (.inr ⟨by decide, by decide⟩),
    (hscans hflag).2.1 _ hprints, hsame _ (by decide) (by decide) (by decide),
    (hscans' hname).2.2 ?_⟩
  rw [Ne, (hscans' hname).1]
  rintro ⟨text, file, content, source, hfile, hcontent, hsource', hshows⟩
  have hfileNames : fileNames ["a"] = ["a"] := by decide
  have hlookup : lookup "a" = .file ")".toUTF8 := rfl
  rw [hfileNames] at hfile
  cases hfile
  rw [hlookup] at hcontent
  cases hcontent
  rw [hsource] at hsource'
  cases hsource'
  rcases hshows with ⟨hmem, -⟩ | ⟨-, t, ht, -⟩
  · revert hmem
    decide
  · rw [hparse] at ht
    cases ht

end ExprLang.CommandLine
