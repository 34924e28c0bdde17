import Scriptlet.Proofs.Grammar.Moved
import Scriptlet.Proofs.CSource.Moved
import Scriptlet.Proofs.CSource.Declared

/-!
Layout never changes what a script does. Two texts with the same kinds of tokens may place
them differently, by blanks, newlines and comments; the places end up in trees and errors
and nowhere else. To forget a place is to move it to the start of the text, so all that
is known about moving applies to either text, and once moved the two are equal.
-/
namespace Scriptlet

def Position.forget (_ : Position) : Position := .start

/-- Equal but for the places in them. -/
def Tree.Resembles (t t' : Tree) : Prop :=
  t.moved Position.forget = t'.moved Position.forget

/-- Errors of one kind with the same data, which may be blamed on different places. -/
def ScriptError.Resembles (e e' : ScriptError) : Prop :=
  e.moved Position.forget = e'.moved Position.forget

/-- Both results are values that `A` relates, or both are errors that `E` relates. -/
inductive Alike {ε α : Type} (E : ε → ε → Prop) (A : α → α → Prop) :
    Except ε α → Except ε α → Prop
  | ok {a a' : α} : A a a' → Alike E A (.ok a) (.ok a')
  | error {e e' : ε} : E e e' → Alike E A (.error e) (.error e')

theorem alike_of_eq {ε ε' α α' : Type} {h : ε → ε'} {g : α → α'} {x x' : Except ε α}
    (heq : (x.map g).mapError h = (x'.map g).mapError h) :
    Alike (fun e e' => h e = h e') (fun a a' => g a = g a') x x' := by
  cases x with
  | ok a =>
    cases x' with
    | ok a' => exact .ok (Except.ok.inj heq)
    | error e' => cases heq
  | error e =>
    cases x' with
    | ok a' => cases heq
    | error e' => exact .error (Except.error.inj heq)

/-- Two runs that are the same once their errors are moved. -/
theorem Relocates.alike {f : Position → Position} {σ α : Type} {g : σ → σ} (hg : ∀ s, g s = s)
    {x x' y : Attempt σ α} {s : σ} (hx : Relocates f g x y s) (hx' : Relocates f g x' y s) :
    (x.run s).2 = (x'.run s).2 ∧
      Alike (fun e e' => e.moved f = e'.moved f) Eq (x.run s).1 (x'.run s).1 := by
  have heq := Eq.trans (Eq.symm hx) hx'
  obtain ⟨hresult, hstate⟩ := Prod.mk.inj heq
  rw [hg, hg] at hstate
  refine ⟨hstate, alike_of_eq (g := id) ?_⟩
  simpa only [Except.map_id, id_eq] using hresult

theorem Token.moved_forget (ts : List Token) :
    ts.map (Token.moved Position.forget) = (ts.map Token.kind).map fun k => ⟨k, .start⟩ := by
  rw [List.map_map]
  rfl

namespace Script

variable {s s' : String} {ts ts' : List Token}

/-- Reading is the same wherever the tokens stand, the positions in its answer apart. -/
theorem parse_moved {f : Position → Position} (h : Token.scan s = .ok ts) :
    ((parse s).map (Tree.moved f)).mapError (ScriptError.moved f) =
      (Grammar.program (ts.map (Token.moved f))).mapError ScriptError.grammar := by
  rw [Grammar.program_moved]
  unfold parse
  simp only [h]
  cases Grammar.program ts <;> rfl

/-- Texts of the same tokens are read alike. -/
theorem parse_alike (h : Token.scan s = .ok ts) (h' : Token.scan s' = .ok ts')
    (hkinds : ts.map Token.kind = ts'.map Token.kind) :
    Alike ScriptError.Resembles Tree.Resembles (parse s) (parse s') := by
  apply alike_of_eq
  rw [parse_moved h, parse_moved h', Token.moved_forget, Token.moved_forget, hkinds]

/-- Trees of scripts that resemble each other run and are written out alike, because both do
so like the one tree that is left when places are forgotten. -/
theorem relocates_alike {t t' : Tree} (hs : parse s = .ok t) (hs' : parse s' = .ok t')
    (h : t.Resembles t') :
    (∃ y, ∀ m, Relocates .forget (Machine.behind "") t.run y m ∧
      Relocates .forget (Machine.behind "") t'.run y m) ∧
    ∃ y, ∀ d, Relocates .forget (fun d => d) (t.draft .statement) y d ∧
      Relocates .forget (fun d => d) (t'.draft .statement) y d := by
  obtain ⟨body, rfl⟩ := parse_eq_program hs
  obtain ⟨body', rfl⟩ := parse_eq_program hs'
  have hbody := allStatements_of_parse hs
  have hbody' := allStatements_of_parse hs'
  refine ⟨⟨_, fun m => ⟨Tree.relocates_program _ _ hbody m, ?_⟩⟩,
    ⟨_, fun d => ⟨Tree.relocates_draft_program _ hbody _ d, ?_⟩⟩⟩
  · rw [h]
    exact Tree.relocates_program _ _ hbody' m
  · rw [h]
    exact Tree.relocates_draft_program _ hbody' _ d

/-- Scripts that are read alike write the same, and end alike. -/
theorem run_alike (h : Alike ScriptError.Resembles Tree.Resembles (parse s) (parse s'))
    (output : Output) :
    (run s output).output = (run s' output).output ∧
      Alike ScriptError.Resembles Eq (run s output).result (run s' output).result := by
  unfold run
  generalize hs : parse s = r at h
  generalize hs' : parse s' = r' at h
  cases h with
  | error hresembles => exact ⟨rfl, .error hresembles⟩
  | @ok t t' hresembles =>
    -- Neither run is turned into the other: both are compared with that of the placeless tree.
    obtain ⟨⟨y, hy⟩, _⟩ := relocates_alike hs hs' hresembles
    obtain ⟨hfirst, hsecond⟩ := hy { output := output }
    obtain ⟨hstate, hresult⟩ := hfirst.alike Machine.behind_empty hsecond
    dsimp only
    generalize t.run.run { output := output } = ended at hstate hresult
    generalize t'.run.run { output := output } = ended' at hstate hresult
    obtain ⟨result, m⟩ := ended
    obtain ⟨result', m'⟩ := ended'
    obtain rfl : m = m' := hstate
    cases hresult with
    | ok _ => exact ⟨rfl, .ok rfl⟩
    | error hmoved => exact ⟨rfl, .error (congrArg ScriptError.run hmoved)⟩

/-- Scripts that are read alike become the same C, or fail alike. -/
theorem toC_alike (h : Alike ScriptError.Resembles Tree.Resembles (parse s) (parse s'))
    (step : Nat) : Alike ScriptError.Resembles Eq (toC s step) (toC s' step) := by
  unfold toC
  generalize hs : parse s = r at h
  generalize hs' : parse s' = r' at h
  cases h with
  | error hresembles => exact .error hresembles
  | @ok t t' hresembles =>
    obtain ⟨_, y, hy⟩ := relocates_alike hs hs' hresembles
    obtain ⟨hfirst, hsecond⟩ := hy {}
    obtain ⟨_, hresult⟩ := hfirst.alike (fun _ => rfl) hsecond
    dsimp only
    generalize (t.draft .statement).run {} = ended at hresult
    generalize (t'.draft .statement).run {} = ended' at hresult
    obtain ⟨result, d⟩ := ended
    obtain ⟨result', d'⟩ := ended'
    cases hresult with
    | ok hcode => exact .ok (congrArg (fun code => code.text step 0) hcode)
    | error hmoved => exact .error (congrArg ScriptError.run hmoved)

/-- Texts with the same kinds of tokens in the same order are read, run and written out as C
alike: places are the only difference, and only trees and errors have any. -/
theorem alike_of_kinds (h : Token.scan s = .ok ts) (h' : Token.scan s' = .ok ts')
    (hkinds : ts.map Token.kind = ts'.map Token.kind) :
    Alike ScriptError.Resembles Tree.Resembles (parse s) (parse s') ∧
      (∀ output, (run s output).output = (run s' output).output ∧
        Alike ScriptError.Resembles Eq (run s output).result (run s' output).result) ∧
      ∀ step, Alike ScriptError.Resembles Eq (toC s step) (toC s' step) := by
  have hparse := parse_alike h h' hkinds
  exact ⟨hparse, run_alike hparse, toC_alike hparse⟩

/-- The script `5; 2 * x;`, its tokens at the given places. -/
def fiveThenDouble (five two times x : Position) : List Tree :=
  [.literal 5 true five,
    .arith .mul (.literal 2 false two) (.name "x" false x) true times]

/-- A comment and a newline move a name to another place, and with it the error. -/
theorem brokenLine_alike :
    run "5; 2 * x;" {} = ⟨.error (.run (.unbound "x" ⟨1, 8⟩)), "5\n"⟩ ∧
    run "5 ; # five\n2*x;" {} = ⟨.error (.run (.unbound "x" ⟨2, 3⟩)), "5\n"⟩ ∧
    Alike ScriptError.Resembles Eq (run "5; 2 * x;" {}).result
      (run "5 ; # five\n2*x;" {}).result ∧
    Alike ScriptError.Resembles Eq (toC "5; 2 * x;" 2) (toC "5 ; # five\n2*x;" 2) := by
  have hscan : Token.scan "5; 2 * x;" = .ok [⟨.integer 5, ⟨1, 1⟩⟩, ⟨.mark .semicolon, ⟨1, 2⟩⟩,
      ⟨.integer 2, ⟨1, 4⟩⟩, ⟨.mark .star, ⟨1, 6⟩⟩, ⟨.identifier "x", ⟨1, 8⟩⟩,
      ⟨.mark .semicolon, ⟨1, 9⟩⟩] := by with_unfolding_all rfl
  have hscan' : Token.scan "5 ; # five\n2*x;" = .ok [⟨.integer 5, ⟨1, 1⟩⟩,
      ⟨.mark .semicolon, ⟨1, 3⟩⟩, ⟨.integer 2, ⟨2, 1⟩⟩, ⟨.mark .star, ⟨2, 2⟩⟩,
      ⟨.identifier "x", ⟨2, 3⟩⟩, ⟨.mark .semicolon, ⟨2, 4⟩⟩] := by with_unfolding_all rfl
  have hparse : parse "5; 2 * x;" =
      .ok (.program (fiveThenDouble ⟨1, 1⟩ ⟨1, 4⟩ ⟨1, 6⟩ ⟨1, 8⟩)) := by with_unfolding_all rfl
  have hparse' : parse "5 ; # five\n2*x;" =
      .ok (.program (fiveThenDouble ⟨1, 1⟩ ⟨2, 1⟩ ⟨2, 2⟩ ⟨2, 3⟩)) := by with_unfolding_all rfl
  have hend (five two times x : Position) :
      (Tree.program (fiveThenDouble five two times x)).run.run {} =
        (.error (.unbound "x" x), ⟨.empty, ⟨"5\n", none⟩⟩) := rfl
  obtain ⟨_, hrun, htoC⟩ := alike_of_kinds hscan hscan' rfl
  exact ⟨run_of_parse hparse (hend ..), run_of_parse hparse' (hend ..), (hrun {}).2, htoC 2⟩

end Script

end Scriptlet
