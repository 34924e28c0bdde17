import Scriptlet.CommandLine.Perform
import Scriptlet.Proofs.Token.Refused

/-!
Blank scripts on the command line. A command does not look at a script in which nothing but white
space stands, and white space is then what Unicode calls so. Between tokens only some of it may
stand: blanks, tabs, feeds, returns and newlines. On these the two agree, since a script without
tokens does nothing. A script with white space of another kind is refused when it is run,
but a command that finds nothing else in it succeeds. What is printed is the same in any case.
-/
namespace Scriptlet

namespace Lexeme

/-- White space is what may stand between tokens, or lies beyond the characters of tokens. -/
theorem isBlank_or_lt {c : Char} (h : Text.isWhiteSpace c = true) : IsBlank c ∨ 127 < c.toNat := by
  have hmem : c.toNat ∈ Text.whiteSpace := by simpa [Text.isWhiteSpace] using h
  by_cases hlarge : 127 < c.toNat
  · exact Or.inr hlarge
  · left
    have hcode : c.toNat = 9 ∨ c.toNat = 10 ∨ c.toNat = 11 ∨ c.toNat = 12 ∨ c.toNat = 13 ∨
        c.toNat = 32 := by
      simp only [Text.whiteSpace, List.mem_cons, List.not_mem_nil, or_false] at hmem
      omega
    have hchar : c = '\t' ∨ c = '\n' ∨ c = '\x0b' ∨ c = '\x0c' ∨ c = '\r' ∨ c = ' ' := by
      simp only [← Char.toNat_inj]
      exact hcode
    rcases hchar with hc | hc | hc | hc | hc | hc <;> subst c
    · exact Or.inl rfl
    · exact Or.inr rfl
    all_goals exact Or.inl rfl

theorem ofChar?_of_lt {c : Char} (h : 127 < c.toNat) : Mark.ofChar? c = none := by
  refine List.find?_eq_none.mpr fun m _ hm => ?_
  rw [← eq_of_beq hm] at h
  cases m <;> exact absurd h (by decide)

theorem toClass_of_lt {c : Char} (h : 127 < c.toNat) : Class.ofChar c = .sign := by
  have hopens := Class.opens_ofChar c
  cases hc : Class.ofChar c with
  | sign => rfl
  | newline | comment =>
    rw [hc] at hopens
    exact absurd h (by rw [hopens]; decide)
  | spaces =>
    rw [hc, Class.Opens, not_isSpace (by omega)] at hopens
    cases hopens
  | digits =>
    rw [hc] at hopens
    have hdigit := isDigit_iff.mp hopens
    omega
  | word =>
    rw [hc] at hopens
    have hletter := isLetter_iff.mp hopens
    omega

/-- No token starts with a character beyond the characters of tokens. -/
theorem tokens_of_lt {c : Char} (h : 127 < c.toNat) (p : Position) (cs : List Char) :
    tokens p (cut (c :: cs)) = .error (.strayCharacter c p) := by
  have hclass : toClass ⟨c, []⟩ = .sign := toClass_of_lt h
  have hkind : kind? ⟨c, []⟩ p = .error (.strayCharacter c p) := by
    simp only [kind?, hclass, ofChar?_of_lt h]
  have hwell : WellFormed ⟨c, []⟩ := by simp [WellFormed]
  have hend : EndsBefore ⟨c, []⟩ cs := by
    intro d _
    rw [hclass]
    rfl
  have hcut := cut_append hwell hend
  rw [chars, List.singleton_append] at hcut
  rw [hcut, tokens, hkind]
  rfl

instance (c : Char) : Decidable (IsBlank c) :=
  inferInstanceAs (Decidable (isSpace c = true ∨ c = '\n'))

end Lexeme

namespace Script

open Lexeme

/-- Blanks and newlines hold no token. -/
theorem scan_of_forall_isBlank {script : String} (h : ∀ c ∈ script.toList, IsBlank c) :
    Token.scan script = .ok [] := by
  have hgap : Gap script.toList [] := by simpa using Gap.blanks h (.nil [])
  exact Token.scan_eq_ok_iff.mpr (.last hgap)

/-- A script without tokens does nothing. -/
theorem run_of_forall_isBlank {script : String} (h : ∀ c ∈ script.toList, IsBlank c) :
    run script {} = ⟨.ok (), ""⟩ := by
  have hprogram : Grammar.program [] = .ok (.program []) := by
    simp [Grammar.program, Grammar.statements, Functor.map, Except.map]
  have hparse : parse script = .ok (.program []) := by
    simp only [parse, scan_of_forall_isBlank h, hprogram]
  unfold run
  rw [hparse]
  rfl

/-- A character beyond those of tokens is refused where nothing but blanks stands before it. -/
theorem run_of_stray {script : String} {before after : List Char} {c : Char}
    (hscript : script.toList = before ++ c :: after) (hbefore : ∀ d ∈ before, IsBlank d)
    (hc : 127 < c.toNat) :
    run script {} = ⟨.error (.scan (.strayCharacter c (.ofText before))), ""⟩ := by
  have hgap : Gap before (c :: after) := by simpa using Gap.blanks hbefore (.nil (c :: after))
  have hscan : Token.scan script = .error (.strayCharacter c (.ofText before)) := by
    rw [Token.scan, hscript, hgap.tokens_eq, Position.start_after]
    exact tokens_of_lt hc _ after
  simp only [run, parse, hscan]

/-- Nothing but white space, some of which may not stand between tokens. -/
def IsForeignBlank (script : String) : Prop :=
  Text.isBlank script = true ∧ ∃ c ∈ script.toList, ¬ IsBlank c

/-- The first white space that may not stand between tokens is refused. -/
theorem IsForeignBlank.exists_stray {script : String} (h : IsForeignBlank script) :
    ∃ before c after, script.toList = before ++ c :: after ∧ (∀ d ∈ before, IsBlank d) ∧
      Text.isWhiteSpace c = true ∧ ¬ IsBlank c ∧
      run script {} = ⟨.error (.scan (.strayCharacter c (.ofText before))), ""⟩ := by
  obtain ⟨hspaces, d, hd, hforeign⟩ := h
  have hfound : (script.toList.find? fun c => !decide (IsBlank c)).isSome = true :=
    List.find?_isSome.mpr ⟨d, hd, by simpa using hforeign⟩
  obtain ⟨c, hc⟩ := Option.isSome_iff_exists.mp hfound
  obtain ⟨hnot, before, after, hscript, hbefore⟩ := List.find?_eq_some_iff_append.mp hc
  have hblank : ¬ IsBlank c := by simpa using hnot
  have hblanks : ∀ b ∈ before, IsBlank b := fun b hb => by simpa using hbefore b hb
  have hspace : Text.isWhiteSpace c = true :=
    List.all_eq_true.mp hspaces c (by rw [hscript]; simp)
  have hlarge := (isBlank_or_lt hspace).resolve_left hblank
  exact ⟨before, c, after, hscript, hblanks, hspace, hblank, run_of_stray hscript hblanks hlarge⟩

end Script

namespace CommandLine

open Lexeme Script

def Action.outcome : Action → Report
  | report r => r
  | save _ => .success ""

/-- What a command that runs scripts reports, by what it reads. -/
def Job.answer (j : Job) (content : Except FileFault ByteArray) : Report :=
  match content >>= decode with
  | .error e => .failure "" ("Failed to read the input file '" ++ j.file ++ "': " ++ e.message)
  | .ok script => (j.action script).outcome

theorem decode_toUTF8 (s : String) : decode s.toUTF8 = .ok s := by
  have hdecode : String.fromUTF8? s.toUTF8 = some s := dif_pos s.isValidUTF8
  simp only [decode, hdecode]

/-- Where no C is asked for, a command reads its script and reports, and that is all it does. -/
theorem Job.perform_eq_map {m : Type → Type} [Monad m] [LawfulMonad m] [Files m] {j : Job}
    (hemit : j.emit = false) : (j.perform : m Report) = j.answer <$> Files.read j.file := by
  unfold Job.perform
  rw [map_eq_pure_bind]
  congr 1
  funext content
  unfold Job.answer
  cases content >>= decode with
  | error e => rfl
  | ok script =>
    cases haction : j.action script with
    | report r => simp only [haction, Action.outcome]
    | save code =>
      unfold Job.action at haction
      rw [hemit] at haction
      split at haction
      · cases haction
      · cases hresult : (run script {}).result <;> simp [hresult] at haction

/-- What a command reports about a text is what it does with it. -/
theorem Job.answer_toUTF8 (j : Job) (script : String) :
    j.answer (.ok script.toUTF8) = (j.action script).outcome := by
  have hread : (Except.ok script.toUTF8 : Except FileFault ByteArray) >>= decode = .ok script :=
    decode_toUTF8 script
  unfold Job.answer
  rw [hread]

/-- A script that is not blank is run, and the report says how that went. -/
theorem Job.answer_of_not_isBlank {j : Job} (hemit : j.emit = false) {script : String}
    (hblank : Text.isBlank script = false) :
    (j.answer (.ok script.toUTF8)).output = (run script {}).output ∧
      ((j.answer (.ok script.toUTF8)).status = 0 ↔ (run script {}).result = .ok ()) := by
  rw [j.answer_toUTF8, Job.action, hblank, hemit]
  cases hresult : (run script {}).result with
  | ok u => simp [hresult, Action.outcome, Report.success]
  | error e => simp [hresult, Action.outcome, Report.failure]

/-- A script of nothing but white space does nothing. -/
theorem Job.answer_of_isBlank (j : Job) {script : String} (hblank : Text.isBlank script = true) :
    j.answer (.ok script.toUTF8) = .success "" := by
  rw [j.answer_toUTF8, Job.action, hblank]
  rfl

/-- What a command that runs a script prints and whether it succeeds, beside the run of the same
text. Both print the same. A command succeeds exactly if the run does, but for one kind of text:
where there is white space only, and not all of it may stand between tokens, the run refuses the
first that may not, before anything is printed, and the command succeeds. -/
theorem command_runs_script {m : Type → Type} [Monad m] [LawfulMonad m] [Files m] {j : Job}
    (hemit : j.emit = false) :
    (j.perform : m Report) = j.answer <$> Files.read j.file ∧
    ∀ script : String,
      (j.answer (.ok script.toUTF8)).output = (run script {}).output ∧
      ((j.answer (.ok script.toUTF8)).status = 0 ↔
        (run script {}).result = .ok () ∨ IsForeignBlank script) ∧
      (IsForeignBlank script → ∃ before c after,
        script.toList = before ++ c :: after ∧ (∀ d ∈ before, IsBlank d) ∧
        Text.isWhiteSpace c = true ∧ ¬ IsBlank c ∧
        run script {} = ⟨.error (.scan (.strayCharacter c (.ofText before))), ""⟩) := by
  refine ⟨Job.perform_eq_map hemit, fun script => ?_⟩
  cases hblank : Text.isBlank script with
  | false =>
    have hforeign : ¬ IsForeignBlank script := fun h => by simp [h.1] at hblank
    obtain ⟨houtput, hstatus⟩ := Job.answer_of_not_isBlank hemit hblank
    exact ⟨houtput, by simpa [hforeign] using hstatus, fun h => absurd h hforeign⟩
  | true =>
    rw [j.answer_of_isBlank hblank]
    by_cases hall : ∀ c ∈ script.toList, IsBlank c
    · have hforeign : ¬ IsForeignBlank script := by
        rintro ⟨_, c, hc, hnot⟩
        exact hnot (hall c hc)
      rw [run_of_forall_isBlank hall]
      exact ⟨rfl, by simp [Report.success], fun h => absurd h hforeign⟩
    · have hforeign : IsForeignBlank script := ⟨hblank, by simpa using hall⟩
      obtain ⟨before, c, after, hscript, hbefore, hspace, hnot, hrun⟩ := hforeign.exists_stray
      refine ⟨by rw [hrun]; rfl, by simp [hforeign, Report.success], fun _ => ?_⟩
      exact ⟨before, c, after, hscript, hbefore, hspace, hnot, hrun⟩

def runFile : Job := ⟨"p.bk", false, "out.c"⟩

/-- Where anything but white space is in a script, a no-break space is refused in both ways. -/
theorem sevenThenSpace_runs :
    (runFile.perform : StateM Directory Report) = runFile.answer <$> Files.read "p.bk" ∧
    run "7;\u00a0" {} = ⟨.error (.scan (.strayCharacter '\u00a0' ⟨1, 3⟩)), ""⟩ ∧
    (runFile.answer (.ok "7;\u00a0".toUTF8)).status ≠ 0 ∧
    run " 7; " {} = ⟨.ok (), "7\n"⟩ ∧
    (runFile.answer (.ok " 7; ".toUTF8)).status = 0 ∧
    (runFile.answer (.ok " 7; ".toUTF8)).output = "7\n" := by
  have hforeign : run "7;\u00a0" {} =
      ⟨.error (.scan (.strayCharacter '\u00a0' ⟨1, 3⟩)), ""⟩ := by with_unfolding_all rfl
  have hseven : run " 7; " {} = ⟨.ok (), "7\n"⟩ := by with_unfolding_all rfl
  obtain ⟨hperform, hscripts⟩ := command_runs_script (m := StateM Directory) (j := runFile) rfl
  obtain ⟨_, hfails, _⟩ := hscripts "7;\u00a0"
  obtain ⟨houtput, hsucceeds, _⟩ := hscripts " 7; "
  have hmixed : ¬ IsForeignBlank "7;\u00a0" := fun h => absurd h.1 (by decide)
  refine ⟨hperform, hforeign, fun hstatus => ?_, hseven, ?_, ?_⟩
  · rcases hfails.mp hstatus with hok | hblank
    · rw [hforeign] at hok
      cases hok
    · exact hmixed hblank
  · exact hsucceeds.mpr (Or.inl (by rw [hseven]))
  · rw [houtput, hseven]

theorem splitOn_runFile : "p.bk".splitOn "/" = ["p.bk"] := by
  unfold String.splitOn
  rw [if_neg (by decide)]
  iterate 4 rw [String.splitOnAux, if_neg (by decide), if_neg (by decide)]
  rw [String.splitOnAux, if_pos (by decide)]
  rfl

/-- A no-break space alone is refused as a script, but a command takes it for an empty one. -/
theorem noBreakSpace_differs :
    ((perform ["p.bk"] : StateM Directory Report).run
      (Directory.addFile {} "p.bk" "\u00a0".toUTF8)).1 = ⟨0, "", ""⟩ ∧
    run "\u00a0" {} = ⟨.error (.scan (.strayCharacter '\u00a0' ⟨1, 1⟩)), ""⟩ := by
  have hperform : (perform ["p.bk"] : StateM Directory Report) =
      runFile.answer <$> Files.read "p.bk" := Job.perform_eq_map rfl
  have hread : (Directory.addFile {} "p.bk" "\u00a0".toUTF8).read "p.bk" =
      .ok "\u00a0".toUTF8 := by
    unfold Directory.addFile Directory.read Directory.parts Directory.names
    rw [splitOn_runFile]
    rfl
  constructor
  · rw [hperform]
    change runFile.answer ((Directory.addFile {} "p.bk" "\u00a0".toUTF8).read "p.bk") = _
    rw [hread, runFile.answer_of_isBlank rfl]
    rfl
  · with_unfolding_all rfl

end CommandLine

end Scriptlet
