import Scriptlet.Proofs.Tree.Frame
import Scriptlet.Proofs.CSource.Induction
import Scriptlet.Proofs.Machine.Fails

/-!
What a draft can do to bindings. A draft evaluates some of the trees it comes across and
drafts them too, on the same bindings, and one assignment may stand in the value of another.
All it does to bindings are assignments to the targets of the tree, like a run, also where it
fails halfway.
-/
namespace Scriptlet

section Drafts

open CSource

variable {ids : List String}

theorem CSource.Drafting.rebindsOnly_evaluate {t : Tree} (h : t.targets ⊆ ids) (d : Draft) :
    RebindsOnly Draft.bindings ids (evaluate t) d := by
  rw [RebindsOnly, run_evaluate]
  exact Tree.rebindsOnly_runValue h { bindings := d.bindings }

theorem CSource.rebindsOnly_draftRules (ids : List String) :
    DraftRules id (fun a => a.targets ⊆ ids)
      (fun _ _ x _ d => RebindsOnly Draft.bindings ids x d) where
  part h hholds := List.Subset.trans hholds.gather_subset h
  of_pure _ := rebindsOnly_of_eq rfl
  bind hx hnext := hx.bind hnext
  after _ h := h
  of_get := rebindsOnly_of_eq rfl
  resolve _ := Attempt.rebindsOnly_resolve _ _
  evaluate h heval :=
    Drafting.rebindsOnly_evaluate (List.Subset.trans heval.holds.gather_subset h) _
  define h _ _ := (Bindings.Rebinds.refl _).define (h List.mem_cons_self) _
  count _ := Attempt.rebindsOnly_ofExcept _
  takeCounter := rebindsOnly_of_eq rfl

/-- A draft assigns to no names but those the tree assigns to. -/
theorem Tree.rebindsOnly_draft {t : Tree} (h : t.targets ⊆ ids) (place : Place) (d : Draft) :
    RebindsOnly Draft.bindings ids (t.draft place) d :=
  (rebindsOnly_draftRules ids).tree t h place d

end Drafts

section Assignments

variable {id : String} {v : Tree} {p : Position}

/-- An assignment fails only where its value does: the binding itself is made last and
cannot fail. -/
theorem Tree.fails_run_assign {m m' : Machine} {e : RunError}
    (h : Fails (Tree.assign id v p).run m e m') : Fails v.runValue m e m' := by
  simp only [Tree.run, fails_bind, not_fails_pure, and_false, exists_false, or_false] at h
  rcases h with hrun | ⟨a, m₁, hrun, hneeded | ⟨x, m₂, _, hdefine⟩⟩
  · exact (fails_bind ..).mpr (.inl hrun)
  · exact (fails_bind ..).mpr (.inr ⟨a, m₁, hrun, hneeded⟩)
  · exact absurd hdefine (not_fails_modify _ m₂ m' e)

/-- The draft of an assignment fails where its value is evaluated or where it is drafted. -/
theorem Tree.fails_draft_assign {place : CSource.Place} {d d' : CSource.Draft} {e : RunError}
    (h : Fails ((Tree.assign id v p).draft place) d e d') :
    Fails (CSource.Drafting.evaluate v) d e d' ∨
      ∃ x d₁, Gives (CSource.Drafting.evaluate v) d x d₁ ∧ Fails (v.draft .value) d₁ e d' := by
  simp only [Tree.draft, fails_bind, not_fails_get, gives_get, CSource.Drafting.not_fails_define,
    not_fails_pure, and_false, exists_false, or_false, false_or] at h
  obtain ⟨_, _, ⟨rfl, rfl⟩, h⟩ := h
  exact h

end Assignments

namespace CSource

/-- All that a tree can do to bindings when it is run or drafted, whatever tree it is, wherever
it starts and however it ends: no name is lost, and only targets of assignments in the tree
change, so nothing does where there are none. An assignment that fails has done nothing yet,
unless other assignments stand in its value. -/
theorem bindings_framed (t : Tree) :
    (∀ m r m', t.run.run m = (r, m') →
      Bindings.KeepsOutside t.targets m.bindings m'.bindings) ∧
    (∀ place d r d', (t.draft place).run d = (r, d') →
      Bindings.KeepsOutside t.targets d.bindings d'.bindings) ∧
    ∀ id v p, t = .assign id v p → v.targets = [] →
      (∀ m e m', Fails t.run m e m' → m'.bindings = m.bindings) ∧
      ∀ place d e d', Fails (t.draft place) d e d' → d'.bindings = d.bindings := by
  refine ⟨fun m r m' hrun => ?_, fun place d r d' hdraft => ?_, ?_⟩
  · have hrebinds := Tree.rebindsOnly_run (List.Subset.refl t.targets) m
    rw [RebindsOnly, hrun] at hrebinds
    exact hrebinds.keepsOutside
  · have hrebinds := Tree.rebindsOnly_draft (List.Subset.refl t.targets) place d
    rw [RebindsOnly, hdraft] at hrebinds
    exact hrebinds.keepsOutside
  · rintro id v p rfl hv
    have hnil : v.targets ⊆ [] := hv ▸ List.Subset.refl _
    refine ⟨fun m e m' hfails => ?_, fun place d e d' hfails => ?_⟩
    · have hrebinds := Tree.rebindsOnly_runValue hnil m
      rw [RebindsOnly, Tree.fails_run_assign hfails] at hrebinds
      exact hrebinds.eq_of_nil
    · have hevaluate := Drafting.rebindsOnly_evaluate hnil d
      rcases Tree.fails_draft_assign hfails with hfirst | ⟨x, d₁, hfirst, hsecond⟩
      · rw [RebindsOnly, hfirst] at hevaluate
        exact hevaluate.eq_of_nil
      · rw [RebindsOnly, hfirst] at hevaluate
        have hdraft := Tree.rebindsOnly_draft hnil .value d₁
        rw [RebindsOnly, hsecond] at hdraft
        exact hdraft.eq_of_nil.trans hevaluate.eq_of_nil

/-- The statement `let x = x + y`. -/
def sumAssigned : Tree :=
  .assign "x" (.arith .add (.name "x" false ⟨1, 9⟩) (.name "y" false ⟨1, 13⟩) false ⟨1, 11⟩) ⟨1, 1⟩

/-- Where `y` is not bound, neither a run nor a draft of `sumAssigned` gets to assign to `x`. -/
theorem sumAssigned_framed :
    (∃ m, Fails sumAssigned.run { bindings := Bindings.empty.define "x" (.integer 1) }
        (.unbound "y" ⟨1, 13⟩) m ∧ m.bindings = Bindings.empty.define "x" (.integer 1)) ∧
    ∃ d, Fails (sumAssigned.draft .statement)
        { bindings := Bindings.empty.define "x" (.integer 1) } (.unbound "y" ⟨1, 13⟩) d ∧
      d.bindings = Bindings.empty.define "x" (.integer 1) ∧
      Bindings.KeepsOutside ["x"] (Bindings.empty.define "x" (.integer 1)) d.bindings := by
  have hrun : (sumAssigned.run.run { bindings := Bindings.empty.define "x" (.integer 1) }).1 =
      .error (.unbound "y" ⟨1, 13⟩) := rfl
  have hdraft : ((sumAssigned.draft .statement).run
      { bindings := Bindings.empty.define "x" (.integer 1) }).1 =
      .error (.unbound "y" ⟨1, 13⟩) := rfl
  obtain ⟨_, hkeeps, hfailed⟩ := bindings_framed sumAssigned
  obtain ⟨hruns, hdrafts⟩ := hfailed _ _ _ rfl rfl
  have hfails := Prod.ext hrun rfl
  have hfails' := Prod.ext hdraft rfl
  exact ⟨⟨_, hfails, hruns _ _ _ hfails⟩, _, hfails', hdrafts _ _ _ _ hfails',
    hkeeps _ _ _ _ hfails'⟩

end CSource

end Scriptlet
