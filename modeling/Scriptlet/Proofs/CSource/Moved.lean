import Scriptlet.Proofs.CSource.Induction
import Scriptlet.Proofs.Tree.Safety

/-!
Runs and drafts of moved trees. A place is looked at only when something has gone wrong, to
say where, and of the output a run only sees how much room is left. So a moved tree, started
behind any text already printed, does step by step what the tree does, prints the same
behind that text, and fails with the same error moved. Trees have the shape of scripts here:
a program is the one tree without a place of its own and must not stand where a value is
needed.
-/
namespace Scriptlet

def Output.behind (text : String) (o : Output) : Output :=
  ⟨text ++ o.text, o.room⟩

def Machine.behind (text : String) (m : Machine) : Machine :=
  { m with output := m.output.behind text }

/-- Printing behind a text is printing, with the text before it. -/
theorem Output.write_behind (text : String) (o : Output) (s : String) :
    (o.behind text).write s = ((o.write s).1, (o.write s).2.behind text) := by
  unfold write behind
  cases o.room with
  | none => simp only [String.append_assoc]
  | some k =>
    dsimp only
    by_cases hfits : s.length ≤ k
    · simp only [if_pos hfits, String.append_assoc]
    · simp only [if_neg hfits, String.append_assoc]

@[simp] theorem Machine.behind_empty (m : Machine) : m.behind "" = m := by
  simp [behind, Output.behind]

variable {f : Position → Position} {text : String} {σ α β : Type}

/-- The second run does from `g s` what the first does from `s`, but moves the places of its
errors. -/
def Relocates (f : Position → Position) (g : σ → σ) (x x' : Attempt σ α) (s : σ) : Prop :=
  x'.run (g s) = ((x.run s).1.mapError (RunError.moved f), g (x.run s).2)

theorem Relocates.bind {g : σ → σ} {x x' : Attempt σ α} {k k' : α → Attempt σ β} {s : σ}
    (hx : Relocates f g x x' s) (hk : ∀ a t, Gives x s a t → Relocates f g (k a) (k' a) t) :
    Relocates f g (x >>= k) (x' >>= k') s := by
  unfold Relocates at hx ⊢
  rw [run_bind, run_bind, hx]
  cases hrun : x.run s with
  | mk r t =>
    cases r with
    | error e => rfl
    | ok a => exact hk a t hrun

theorem Bindings.resolve_moved (b : Bindings) (id : String) (p : Position) :
    b.resolve id (f p) = (b.resolve id p).mapError (RunError.moved f) := by
  unfold resolve
  cases b.get? id <;> rfl

theorem Value.count_moved (v : Value) (p : Position) :
    v.count (f p) = (v.count p).mapError (RunError.moved f) := by
  unfold count
  cases v.count? <;> rfl

namespace Attempt

variable {g : σ → σ} {s : σ}

theorem relocates_ofExcept (r : Except RunError α) :
    Relocates f g (ofExcept r) (ofExcept (r.mapError (RunError.moved f))) s := by
  cases r <;> rfl

theorem relocates_count (v : Value) (p : Position) :
    Relocates f g (ofExcept (v.count p)) (ofExcept (v.count (f p))) s := by
  rw [Value.count_moved]
  exact relocates_ofExcept _

theorem relocates_resolve {view : σ → Bindings} (hview : view (g s) = view s) (id : String)
    (p : Position) : Relocates f g (resolve view id p) (resolve view id (f p)) s := by
  change (ofExcept ((view (g s)).resolve id (f p))).run (g s) = _
  rw [hview, Bindings.resolve_moved]
  exact relocates_ofExcept ((view s).resolve id p)

end Attempt

theorem Run.relocates_give (v : Value) (shown : Bool) (m : Machine) :
    Relocates f (Machine.behind text) (give v shown) (give v shown) m := by
  cases shown with
  | false => rfl
  | true =>
    refine Relocates.bind ?_ fun _ _ _ => rfl
    have houtput : (m.behind text).output = m.output.behind text := rfl
    rw [Relocates, run_print, run_print, houtput, Output.write_behind]
    cases (m.output.write (v.text ++ "\n")).1 <;> rfl

theorem Tree.IsSilent.relocates_needed {t : Tree} (h : t.IsSilent) (a : Option Value)
    (m : Machine) :
    Relocates f (Machine.behind text) (Run.needed t.pos a) (Run.needed (t.moved f).pos a) m := by
  rw [h.isExpression.pos_moved]
  cases a <;> rfl

/-- Runs obey the rules for relocation, expressions being silent. -/
theorem relocates_runRules (f : Position → Position) (text : String) :
    RunRules f Part.IsProper
      (fun _ run run' m => Relocates f (Machine.behind text) run run' m) where
  part h hholds := h.holds hholds
  of_pure _ := rfl
  bind hrun hnext := hrun.bind hnext
  enters _ h := h
  resolve _ := Attempt.relocates_resolve rfl _ _
  give _ _ := Run.relocates_give _ _ _
  fault _ _ := rfl
  needed hx hholds hblock _ := (hx.isSilent hholds hblock).relocates_needed _ _
  define _ _ := rfl
  count _ := Attempt.relocates_count _ _

/-- A script that is moved, and run behind a text, does what it did before, further down. -/
theorem Tree.relocates_program (f : Position → Position) (text : String) {body : List Tree}
    (h : Tree.AllStatements body) (m : Machine) :
    Relocates f (Machine.behind text) (Tree.program body).run ((Tree.program body).moved f).run
      m :=
  (relocates_runRules f text).tree (.program body) (.inl h) 0 m

namespace CSource

/-- A draft takes from an evaluation its result and its bindings: the first may name a place,
the second never do. -/
theorem relocates_evaluate {t : Tree} (h : t.IsSilent) (d : Draft) :
    Relocates f (fun d => d) (Drafting.evaluate t) (Drafting.evaluate (t.moved f)) d := by
  have hrun : Relocates f (Machine.behind "") t.runValue (t.moved f).runValue
      { bindings := d.bindings } :=
    ((relocates_runRules f "").tree t (.inr (.inr h)) 0 _).bind fun a m _ => h.relocates_needed a m
  rw [Relocates, Machine.behind_empty, Machine.behind_empty] at hrun
  rw [Relocates, Drafting.run_evaluate, Drafting.run_evaluate, hrun]

theorem relocates_draftRules (f : Position → Position) : DraftRules f Part.IsProper
    (fun _ _ x x' d => Relocates f (fun d => d) x x' d) where
  part h hholds := h.holds hholds
  of_pure _ := rfl
  bind hx hnext := hx.bind hnext
  after _ h := h
  of_get := rfl
  resolve _ := Attempt.relocates_resolve rfl _ _
  evaluate h heval := relocates_evaluate (h.isSilent heval.holds heval.ne_block) _
  define _ _ _ := rfl
  count _ := Attempt.relocates_count _ _
  takeCounter := rfl

end CSource

/-- A script that is moved has the same code. -/
theorem Tree.relocates_draft_program (f : Position → Position) {body : List Tree}
    (h : Tree.AllStatements body) (place : CSource.Place) (d : CSource.Draft) :
    Relocates f (fun d => d) ((Tree.program body).draft place)
      (((Tree.program body).moved f).draft place) d :=
  (CSource.relocates_draftRules f).tree (.program body) (.inl h) place d

end Scriptlet
