import Scriptlet.Proofs.CSource.Emits
import Scriptlet.Proofs.Machine.Fails

/-!
Where a draft stops that fails. The assignments before the place where it stops have been
made, those after it have not. If it stops because a name is not bound, then the name is used
where the error says and no assignment to it stands before.
-/
namespace Scriptlet

/-- If the error is that a name is not bound, then the name is one of the references and the
bindings lack it. -/
def Blames (e : RunError) (b : Bindings) (rs : List (String × Position)) : Prop :=
  ∀ id p, e = .unbound id p → (id, p) ∈ rs ∧ b.contains id = false

theorem Blames.mono {e : RunError} {b : Bindings} {rs rs' : List (String × Position)}
    (h : Blames e b rs) (hsub : ∀ r ∈ rs, r ∈ rs') : Blames e b rs' := by
  intro id p he
  obtain ⟨hmem, hbound⟩ := h id p he
  exact ⟨hsub _ hmem, hbound⟩

section Silent

/-- A run of the tree that fails changes nothing and blames a name of the tree. -/
def Tree.FailsSilently (t : Tree) : Prop :=
  ∀ m e m', Fails t.run m e m' → m' = m ∧ Blames e m.bindings t.references

/-- A run that starts with an operand fails at the operand or after it. -/
theorem Tree.FailsSilently.operand {β : Type} {t : Tree} (h : t.FailsSilently)
    (hsilent : t.RunsSilently) {p : Position} {f : Value → Run β} {m m' : Machine} {e : RunError}
    (hfails : Fails (t.run >>= fun a => Run.needed p a >>= f) m e m') :
    (m' = m ∧ Blames e m.bindings t.references) ∨ ∃ v, Fails (f v) m e m' := by
  simp only [fails_bind, Run.fails_needed, Run.gives_needed] at hfails
  rcases hfails with hrun | ⟨a, m₁, hgives, hrest⟩
  · exact .inl (h m e m' hrun)
  · obtain ⟨v, _, rfl, rfl⟩ := (hsilent _ _ _).mp hgives
    rcases hrest with ⟨hnone, _⟩ | ⟨w, _, ⟨_, rfl⟩, hfails⟩
    · cases hnone
    · exact .inr ⟨w, hfails⟩

theorem Tree.FailsSilently.operands {β : Type} {l r : Tree} (hl : l.FailsSilently)
    (hlsilent : l.RunsSilently) (hr : r.FailsSilently) (hrsilent : r.RunsSilently)
    {p q : Position} {f : Value → Value → Run β} {m m' : Machine} {e : RunError}
    (hfails : Fails (l.run >>= fun a => Run.needed p a >>= fun x =>
      r.run >>= fun b => Run.needed q b >>= f x) m e m') :
    (m' = m ∧ Blames e m.bindings (l.references ++ r.references)) ∨
      ∃ x y, Fails (f x y) m e m' := by
  rcases hl.operand hlsilent hfails with ⟨rfl, hblame⟩ | ⟨x, hfails⟩
  · exact .inl ⟨rfl, hblame.mono fun r hr => List.mem_append_left _ hr⟩
  rcases hr.operand hrsilent hfails with ⟨rfl, hblame⟩ | ⟨y, hfails⟩
  · exact .inl ⟨rfl, hblame.mono fun r hr => List.mem_append_right _ hr⟩
  · exact .inr ⟨x, y, hfails⟩

theorem Run.not_fails_give (v : Value) (m m' : Machine) (e : RunError) :
    ¬ Fails (Run.give v false) m e m' := by
  simp [Run.give]

/-- A silent expression fails silently. -/
theorem Tree.IsSilent.failsSilently : {t : Tree} → t.IsSilent → t.FailsSilently
  | .literal n _ p, h => by
    cases h
    intro m e m' hfails
    exact (Run.not_fails_give _ m m' e hfails).elim
  | .name id _ p, h => by
    cases h
    intro m e m' hfails
    simp only [Tree.run, fails_bind, Attempt.fails_resolve, Run.not_fails_give, and_false,
      exists_false, or_false] at hfails
    obtain ⟨⟨rfl, hbound⟩, rfl⟩ := hfails
    refine ⟨rfl, fun id' p' he => ?_⟩
    cases he
    exact ⟨List.mem_singleton_self _, hbound⟩
  | .arith op l r _ p, h => by
    obtain ⟨hl, hr, rfl⟩ := h
    intro m e m' hfails
    rcases (IsSilent.failsSilently hl).operands hl.runsSilently (IsSilent.failsSilently hr)
      hr.runsSilently hfails with hoperand | ⟨x, y, hfails⟩
    · exact hoperand
    cases happly : op.apply x y with
    | ok v =>
      rw [happly] at hfails
      exact (Run.not_fails_give v m m' e hfails).elim
    | error fault =>
      rw [happly, Run.fails_fail] at hfails
      obtain ⟨rfl, rfl⟩ := hfails
      exact ⟨rfl, fun id p he => by cases he⟩
  | .compare op l r p, h => by
    intro m e m' hfails
    rcases (IsSilent.failsSilently h.1).operands h.1.runsSilently (IsSilent.failsSilently h.2)
      h.2.runsSilently hfails with hoperand | ⟨x, y, hfails⟩
    · exact hoperand
    · exact (not_fails_pure _ m m' e hfails).elim
  | .choose c y n p, h => by
    intro m e m' hfails
    rcases (IsSilent.failsSilently h.1).operand h.1.runsSilently hfails with
      ⟨rfl, hblame⟩ | ⟨x, hfails⟩
    · exact ⟨rfl, hblame.mono fun r hr => by simp [references, hr]⟩
    split at hfails
    · obtain ⟨rfl, hblame⟩ := IsSilent.failsSilently h.2.1 m e m' hfails
      exact ⟨rfl, hblame.mono fun r hr => by simp [references, hr]⟩
    · obtain ⟨rfl, hblame⟩ := IsSilent.failsSilently h.2.2 m e m' hfails
      exact ⟨rfl, hblame.mono fun r hr => by simp [references, hr]⟩

end Silent

namespace CSource

theorem Drafting.fails_evaluate_silent {t : Tree} (h : t.IsSilent) {d d' : Draft} {e : RunError}
    (hfails : Fails (Drafting.evaluate t) d e d') :
    d' = d ∧ Blames e d.bindings t.references := by
  rw [Drafting.fails_evaluate] at hfails
  obtain ⟨m, hrun, rfl⟩ := hfails
  rw [Tree.runValue, fails_bind] at hrun
  rcases hrun with hrun | ⟨a, m₁, hgives, hneeded⟩
  · obtain ⟨rfl, hblame⟩ := h.failsSilently _ _ _ hrun
    exact ⟨rfl, hblame⟩
  · obtain ⟨v, _, rfl, rfl⟩ := (h.runsSilently _ _ _).mp hgives
    obtain ⟨hnone, _⟩ := (Run.fails_needed ..).mp hneeded
    cases hnone

def DraftFailsSilently (t : Tree) : Prop :=
  ∀ place d e d', Fails (t.draft place) d e d' → d' = d ∧ Blames e d.bindings t.references

theorem DraftFailsSilently.operands {l r : Tree} (hl : DraftFailsSilently l)
    (hr : DraftFailsSilently r) (hexpr : l.IsExpression) {f : Code → Code → Code} {d d' : Draft}
    {e : RunError}
    (hfails : Fails (l.draft .value >>= fun c => r.draft .value >>= fun c' => pure (f c c')) d e
      d') : d' = d ∧ Blames e d.bindings (l.references ++ r.references) := by
  simp only [fails_bind, not_fails_pure, gives_draft hexpr, and_false, exists_false,
    or_false] at hfails
  rcases hfails with hleft | ⟨c, _, ⟨_, _, rfl⟩, hright⟩
  · obtain ⟨rfl, hblame⟩ := hl _ _ _ _ hleft
    exact ⟨rfl, hblame.mono fun r hr => List.mem_append_left _ hr⟩
  · obtain ⟨rfl, hblame⟩ := hr _ _ _ _ hright
    exact ⟨rfl, hblame.mono fun r hr => List.mem_append_right _ hr⟩

/-- An expression whose draft fails has a name that is not bound. -/
theorem draftFailsSilently : {t : Tree} → t.IsExpression → DraftFailsSilently t
  | .literal n shown p, _ => fun place d e d' hfails => (not_fails_pure _ d d' e hfails).elim
  | .name id shown p, _ => by
    intro place d e d' hfails
    simp only [Tree.draft, fails_bind, Attempt.fails_resolve, not_fails_pure, and_false,
      exists_false, or_false] at hfails
    obtain ⟨⟨rfl, hbound⟩, rfl⟩ := hfails
    refine ⟨rfl, fun id' p' he => ?_⟩
    cases he
    exact ⟨List.mem_singleton_self _, hbound⟩
  | .arith op l r shown p, h => fun place d e d' hfails =>
    (draftFailsSilently h.1).operands (draftFailsSilently h.2) h.1 hfails
  | .compare op l r p, h => fun place d e d' hfails =>
    (draftFailsSilently h.1).operands (draftFailsSilently h.2) h.1 hfails
  | .choose t y n p, h => by
    intro place d e d' hfails
    simp only [Tree.draft, fails_bind, not_fails_pure, gives_draft h.1, gives_draft h.2.1,
      and_false, exists_false, or_false] at hfails
    rcases hfails with ht | ⟨c, _, ⟨_, _, rfl⟩, hy | ⟨c', _, ⟨_, _, rfl⟩, hn⟩⟩
    · obtain ⟨rfl, hblame⟩ := draftFailsSilently h.1 _ _ _ _ ht
      exact ⟨rfl, hblame.mono fun r hr => by simp [Tree.references, hr]⟩
    · obtain ⟨rfl, hblame⟩ := draftFailsSilently h.2.1 _ _ _ _ hy
      exact ⟨rfl, hblame.mono fun r hr => by simp [Tree.references, hr]⟩
    · obtain ⟨rfl, hblame⟩ := draftFailsSilently h.2.2 _ _ _ _ hn
      exact ⟨rfl, hblame.mono fun r hr => by simp [Tree.references, hr]⟩

/-- Going through the entries from the one bindings stops with the error at the other. -/
structure StopsIn (es : List Entry) (b : Bindings) (e : RunError) (b' : Bindings) : Prop where
  made : ∃ before, before <+: es ∧ make? before b = some b'
  blames : ∀ id p, e = .unbound id p → b.contains id = false ∧
    ∃ before after, mentions es = before ++ .uses id p :: after ∧ .assigns id ∉ before

namespace StopsIn

variable {es fs : List Entry} {b b₁ b' : Bindings} {e : RunError}

/-- Entries that start with the references stop at once. -/
theorem of_blames {rs : List (String × Position)} (h : Blames e b rs)
    (hes : Mention.ofReferences rs <+: mentions es) : StopsIn es b e b := by
  refine ⟨⟨[], List.nil_prefix, rfl⟩, fun id p he => ?_⟩
  obtain ⟨hmem, hbound⟩ := h id p he
  obtain ⟨before, after, rfl⟩ := List.append_of_mem hmem
  obtain ⟨rest, hrest⟩ := hes
  refine ⟨hbound, Mention.ofReferences before, Mention.ofReferences after ++ rest, ?_, by simp⟩
  rw [← hrest]
  simp [Mention.ofReferences]

theorem append_right (h : StopsIn es b e b') (fs : List Entry) : StopsIn (es ++ fs) b e b' := by
  obtain ⟨before, hbefore, hmade⟩ := h.made
  refine ⟨⟨before, hbefore.trans (List.prefix_append es fs), hmade⟩, fun id p he => ?_⟩
  obtain ⟨hbound, pre, post, hes, hpre⟩ := h.blames id p he
  exact ⟨hbound, pre, post ++ mentions fs, by simp [hes], hpre⟩

theorem append_left (hes : make? es b = some b₁) (h : StopsIn fs b₁ e b') :
    StopsIn (es ++ fs) b e b' := by
  obtain ⟨before, hbefore, hmade⟩ := h.made
  refine ⟨⟨es ++ before, (List.prefix_append_right_inj es).mpr hbefore, ?_⟩, fun id p he => ?_⟩
  · rw [make?_append, hes]
    exact hmade
  · obtain ⟨hbound, pre, post, hfs, hpre⟩ := h.blames id p he
    have hcontains := contains_make? hes id
    rw [hbound] at hcontains
    simp only [Bool.false_eq_true, false_iff, not_or, Bool.not_eq_true] at hcontains
    exact ⟨hcontains.1, mentions es ++ pre, post, by simp [hfs], by simp [hcontains.2, hpre]⟩

theorem block (h : StopsIn es b e b') : StopsIn (Entry.block es) b e b' :=
  append_left (show make? [.opens] b = some b from rfl) (h.append_right [.closes])

end StopsIn

theorem stopsIn_shown {t : Tree} (h : t.IsShownSum) {d d' : Draft} {e : RunError}
    (hfails : Fails (t.draft .statement) d e d') :
    StopsIn t.outline d.bindings e d'.bindings := by
  obtain ⟨rfl, hblame⟩ := draftFailsSilently h.isExpression _ _ _ _ hfails
  rw [h.outline_eq]
  exact .of_blames hblame (by simp)

theorem DraftsAll.make?_block {ts : List Tree} {cs : List Code} {d d' : Draft}
    (h : DraftsAll ts d cs d') :
    make? (Entry.block (Tree.outlineAll ts)) d.bindings = some d'.bindings := by
  rw [Scriptlet.make?_block, h.emits.make?_eq]

/-- A count that is refused blames no name. -/
theorem blames_of_count {v : Value} {p : Position} {e : RunError} (h : v.count p = .error e)
    (b : Bindings) (rs : List (String × Position)) : Blames e b rs := by
  intro id q he
  unfold Value.count at h
  split at h
  · cases h
  · cases h
    cases he

mutual

/-- A draft of a statement that fails has stopped in its outline. -/
theorem stopsIn_draft : {t : Tree} → t.IsStatement → {d d' : Draft} → {e : RunError} →
    Fails (t.draft .statement) d e d' → StopsIn t.outline d.bindings e d'.bindings
  | .program _, h, _, _, _, _ => False.elim h
  | .literal n shown p, h, _, _, _, hfails =>
    stopsIn_shown (show (Tree.literal n shown p).IsShownSum from h) hfails
  | .name id shown p, h, _, _, _, hfails =>
    stopsIn_shown (show (Tree.name id shown p).IsShownSum from h) hfails
  | .arith op l r shown p, h, _, _, _, hfails =>
    stopsIn_shown (show (Tree.arith op l r shown p).IsShownSum from h) hfails
  | .compare _ _ _ _, h, _, _, _, _ => False.elim h
  | .choose _ _ _ _, h, _, _, _, _ => False.elim h
  | .assign id v p, h, d, d', e, hfails => by
    have hvalue : v.IsValue := h
    obtain ⟨rfl, hblame⟩ : d' = d ∧ Blames e d.bindings v.references := by
      simp only [Tree.draft, fails_bind, not_fails_get, gives_get, not_fails_pure,
        Drafting.not_fails_define, Drafting.gives_evaluate_silent hvalue.isSilent, false_or,
        and_false, exists_false, or_false] at hfails
      obtain ⟨_, _, ⟨rfl, rfl⟩, heval | ⟨x, _, ⟨_, rfl⟩, hdraft⟩⟩ := hfails
      · exact Drafting.fails_evaluate_silent hvalue.isSilent heval
      · exact draftFailsSilently hvalue.isExpression _ _ _ _ hdraft
    exact .of_blames hblame (by simp [Tree.outline])
  | .loop b body p, h, d, d', e, hfails => by
    simp only [Tree.draft, fails_bind, not_fails_pure, Attempt.fails_ofExcept,
      Attempt.gives_ofExcept, Drafting.not_fails_takeCounter, Drafting.gives_takeCounter,
      Drafting.gives_evaluate_silent h.1.isSilent, false_or, and_false, exists_false,
      or_false] at hfails
    have hrefs : Mention.ofReferences b.references <+: mentions (Tree.loop b body p).outline := by
      simp [Tree.outline, Entry.mentions]
    rcases hfails with heval | ⟨x, _, ⟨hx, rfl⟩, ⟨hcount, rfl⟩ | ⟨n, _, ⟨_, rfl⟩, hbody⟩⟩
    · obtain ⟨rfl, hblame⟩ := Drafting.fails_evaluate_silent h.1.isSilent heval
      exact .of_blames hblame hrefs
    · exact .of_blames (blames_of_count hcount _ _) hrefs
    · obtain ⟨_, _, ⟨rfl, rfl⟩, hbody⟩ := hbody
      exact .append_left (show make? [.repeats b p] _ = some _ from rfl)
        (stopsIn_draftAll h.2 hbody).block
  | .branch (.mk t body others last p), h, d, d', e, hfails => by
    simp only [Tree.draft, Branch.draft, fails_bind, not_fails_pure,
      gives_draft h.1.isExpression, and_false, exists_false, or_false] at hfails
    rcases hfails with htest | ⟨c, _, ⟨_, _, rfl⟩, hbody | ⟨cs, d₁, hcs, hrest⟩⟩
    · obtain ⟨rfl, hblame⟩ := draftFailsSilently h.1.isExpression _ _ _ _ htest
      exact .of_blames hblame (by simp [Tree.outline, Branch.outline])
    · refine .append_left (make?_ofReferences _ _) (.append_right ?_ _)
      exact (stopsIn_draftAll h.2.1 hbody).block
    · have hblock := (draftsAll h.2.1 hcs).make?_block
      refine .append_left (make?_ofReferences _ _) (.append_left hblock ?_)
      rcases hrest with hothers | ⟨os, d₂, hos, hlast⟩
      · exact (stopsIn_draftElifs h.2.2.1 hothers).append_right _
      · refine .append_left (draftsElifs h.2.2.1 hos).emits.make?_eq ?_
        cases last with
        | nil => exact (not_fails_pure _ d₂ d' e hlast).elim
        | cons t ts => exact (stopsIn_draftAll h.2.2.2 hlast).block

theorem stopsIn_draftAll : {ts : List Tree} → Tree.AllStatements ts → {d d' : Draft} →
    {e : RunError} → Fails (Tree.draftAll ts) d e d' →
    StopsIn (Tree.outlineAll ts) d.bindings e d'.bindings
  | [], _, d, d', e, hfails => (not_fails_pure _ d d' e hfails).elim
  | t :: ts, h, d, d', e, hfails => by
    simp only [Tree.draftAll, fails_bind, not_fails_pure, and_false, exists_false,
      or_false] at hfails
    rcases hfails with hhead | ⟨c, d₁, hc, htail⟩
    · exact (stopsIn_draft h.1 hhead).append_right _
    · exact .append_left (draftsTo h.1 hc).emits.make?_eq (stopsIn_draftAll h.2 htail)

theorem stopsIn_draftElifs : {bs : List Branch} → Branch.AllElifs bs → {d d' : Draft} →
    {e : RunError} → Fails (Branch.draftAll bs) d e d' →
    StopsIn (Branch.outlineAll bs) d.bindings e d'.bindings
  | [], _, d, d', e, hfails => (not_fails_pure _ d d' e hfails).elim
  | .mk t body others last p :: bs, h, d, d', e, hfails => by
    obtain ⟨⟨ht, hbody, rfl, rfl⟩, hbs⟩ := h
    simp only [Branch.draftAll, Branch.draft, Tree.draftAll, fails_bind, gives_bind,
      not_fails_pure, gives_pure, gives_draft ht.isExpression, and_false, exists_false,
      or_false] at hfails
    rcases hfails with (htest | ⟨c, _, ⟨_, _, rfl⟩, hblock⟩) | hrest
    · obtain ⟨rfl, hblame⟩ := draftFailsSilently ht.isExpression _ _ _ _ htest
      exact .of_blames hblame (by simp [Branch.outlineAll, Branch.outline])
    · refine .append_right (.append_left (make?_ofReferences _ _) (.append_right ?_ _)) _
      exact (stopsIn_draftAll hbody hblock).block
    · obtain ⟨_, d₂, ⟨c, _, ⟨hc, hbound, rfl⟩, cs, _, hcs, _, _, ⟨rfl, rfl⟩, _, _, ⟨rfl, rfl⟩, rfl,
        rfl⟩, htail⟩ := hrest
      have hbranch := (DraftsElifs.cons p ht hc hbound (draftsAll hbody hcs) (.nil _)).emits
      refine .append_left ?_ (stopsIn_draftElifs hbs htail)
      simpa [Branch.outlineAll] using hbranch.make?_eq

end

end CSource

end Scriptlet
