import Scriptlet.Script
import Scriptlet.Proofs.CSource.Drafted
import Scriptlet.Proofs.Token.Scanned

/-!
The stages of a script. A script that is read comes from a derivation, so it is made of
statements; that it runs or has a C text means that the run or the draft of its statements
succeeds.
-/
namespace Scriptlet.Script

open CSource

/-- A script that is read has tokens, and they derive its tree. -/
theorem phrase_of_parse {source : String} {t : Tree} (h : parse source = .ok t) :
    ∃ ts, Token.scan source = .ok ts ∧ Grammar.Phrase.Program ts t := by
  unfold parse at h
  cases hscan : Token.scan source with
  | error e => rw [hscan] at h; cases h
  | ok ts =>
    cases hprogram : Grammar.program ts with
    | error e => simp [hscan, hprogram] at h
    | ok t' =>
      simp only [hscan, hprogram, Except.ok.injEq] at h
      exact ⟨ts, rfl, h ▸ Grammar.program_sound hprogram (Token.scan_unsigned hscan)⟩

/-- Scripts are made of statements. -/
theorem allStatements_of_parse {source : String} {body : List Tree}
    (h : parse source = .ok (.program body)) : Tree.AllStatements body := by
  obtain ⟨ts, _, hphrase⟩ := phrase_of_parse h
  cases hphrase with
  | statements all => exact all.allStatements

/-- A run is that of the tree. A value it ends with is dropped. -/
theorem run_of_parse {source : String} {t : Tree} {output : Output}
    {r : Except RunError (Option Value)} {m : Machine} (hparse : parse source = .ok t)
    (hrun : t.run.run { output := output } = (r, m)) :
    run source output = ⟨(r.map fun _ => ()).mapError ScriptError.run, m.output.text⟩ := by
  unfold run
  simp only [hparse, hrun]
  cases r <;> rfl

/-- A script that runs to its end is one whose statements do. -/
theorem gives_of_run {source : String} {body : List Tree} {output : Output}
    (hparse : parse source = .ok (.program body)) (h : (run source output).result = .ok ()) :
    ∃ m, Gives (Tree.runAll body) { output := output } () m ∧
      (run source output).output = m.output.text := by
  cases hrun : (Tree.program body).run.run { output := output } with
  | mk result m =>
    rw [run_of_parse hparse hrun] at h ⊢
    cases result with
    | error e => cases h
    | ok a =>
      have hgives : Gives (Tree.program body).run { output := output } a m := hrun
      simp only [Tree.run, gives_bind, gives_pure] at hgives
      obtain ⟨_, _, hbody, rfl, rfl⟩ := hgives
      exact ⟨_, hbody, rfl⟩

/-- A C text is that of the code to which the statements are drafted. -/
theorem draftsAll_of_toC {source text : String} {body : List Tree} {step : Nat}
    (hparse : parse source = .ok (.program body)) (h : toC source step = .ok text) :
    ∃ cs d, DraftsAll body {} cs d ∧ text = (Code.main cs).text step 0 := by
  unfold toC at h
  rw [hparse] at h
  cases hdraft : ((Tree.program body).draft .statement).run {} with
  | mk result d =>
    cases result with
    | error e => simp [hdraft] at h
    | ok code =>
      have hgives : Gives ((Tree.program body).draft .statement) {} code d := hdraft
      simp only [Tree.draft, gives_bind, gives_pure] at hgives
      obtain ⟨cs, _, hbody, rfl, rfl⟩ := hgives
      have hstatements := allStatements_of_parse hparse
      refine ⟨cs, _, draftsAll hstatements hbody, ?_⟩
      simpa [hdraft] using h.symm

/-- A script whose draft succeeds has the C text of its code. -/
theorem toC_of_draft {source : String} {t : Tree} {code : Code}
    (hparse : parse source = .ok t) (hdraft : ((t.draft .statement).run {}).1 = .ok code)
    (step : Nat) : toC source step = .ok (code.text step 0) := by
  unfold toC
  rw [hparse]
  cases hrun : (t.draft .statement).run {} with
  | mk result d =>
    rw [hrun] at hdraft
    cases hdraft
    simp only [hrun]

end Scriptlet.Script
