import Scriptlet.Proofs.Tree.Evaluation

/-!
What drafting gives. Drafting an expression changes nothing in the draft and asks only that
every name of the expression is bound, and the code has the shape of the tree. For the
statements of a script `DraftsTo` says which code they become and how the draft goes on.
-/
namespace Scriptlet

namespace CSource

inductive Drafted : Tree → Code → Prop
  | literal (n : Int64) (shown : Bool) (p : Position) : Drafted (.literal n shown p) (.number n)
  | name (id : String) (shown : Bool) (p : Position) : Drafted (.name id shown p) (.var id)
  | arith {l r : Tree} {c d : Code} (op : ArithOp) (shown : Bool) (p : Position)
      (left : Drafted l c) (right : Drafted r d) :
      Drafted (.arith op l r shown p) (.arith op c d)
  | compare {l r : Tree} {c d : Code} (op : CompareOp) (p : Position)
      (left : Drafted l c) (right : Drafted r d) : Drafted (.compare op l r p) (.compare op c d)
  | choose {t y n : Tree} {c d e : Code} (p : Position)
      (test : Drafted t c) (yes : Drafted y d) (no : Drafted n e) :
      Drafted (.choose t y n p) (.choose c d e)

theorem Drafted.shownAt_value (shown : Bool) (c : Code) : Code.shownAt .value shown c = c := by
  simp [Code.shownAt]

/-- An expression is drafted exactly when its names are bound. -/
theorem gives_draft : {t : Tree} → t.IsExpression → (d d' : Draft) → (c : Code) →
    (Gives (t.draft .value) d c d' ↔
      Drafted t c ∧ (∀ id ∈ t.names, d.bindings.contains id = true) ∧ d' = d)
  | .literal n shown p, _, d, d', c => by
    simp only [Tree.gather, Tree.ownNames, Tree.draft, gives_pure, Drafted.shownAt_value]
    constructor
    · rintro ⟨rfl, rfl⟩
      exact ⟨.literal n shown p, by simp, rfl⟩
    · rintro ⟨hc, _, rfl⟩
      cases hc
      exact ⟨rfl, rfl⟩
  | .name id shown p, _, d, d', c => by
    simp only [Tree.gather, Tree.ownNames, Tree.draft, gives_bind, gives_pure,
      Drafted.shownAt_value, Attempt.gives_resolve, List.mem_singleton, forall_eq,
      Bindings.contains_eq_isSome, Option.isSome_iff_exists]
    constructor
    · rintro ⟨v, _, ⟨hv, rfl⟩, rfl, rfl⟩
      exact ⟨.name id shown p, ⟨v, hv⟩, rfl⟩
    · rintro ⟨hc, ⟨v, hv⟩, rfl⟩
      cases hc
      exact ⟨v, d', ⟨hv, rfl⟩, rfl, rfl⟩
  | .arith op l r shown p, h, d, d', c => by
    simp only [Tree.gather, Tree.ownNames, List.nil_append, Tree.draft, gives_bind, gives_pure,
      Drafted.shownAt_value, gives_draft h.1, gives_draft h.2, List.mem_append]
    constructor
    · rintro ⟨c₁, _, ⟨hl, hln, rfl⟩, c₂, _, ⟨hr, hrn, rfl⟩, rfl, rfl⟩
      exact ⟨.arith op shown p hl hr, fun id hid => hid.elim (hln id) (hrn id), rfl⟩
    · rintro ⟨hc, hn, rfl⟩
      cases hc with
      | arith _ _ _ hl hr =>
        exact ⟨_, _, ⟨hl, fun id hid => hn id (.inl hid), rfl⟩, _, _,
          ⟨hr, fun id hid => hn id (.inr hid), rfl⟩, rfl, rfl⟩
  | .compare op l r p, h, d, d', c => by
    simp only [Tree.gather, Tree.ownNames, List.nil_append, Tree.draft, gives_bind, gives_pure,
      gives_draft h.1, gives_draft h.2, List.mem_append]
    constructor
    · rintro ⟨c₁, _, ⟨hl, hln, rfl⟩, c₂, _, ⟨hr, hrn, rfl⟩, rfl, rfl⟩
      exact ⟨.compare op p hl hr, fun id hid => hid.elim (hln id) (hrn id), rfl⟩
    · rintro ⟨hc, hn, rfl⟩
      cases hc with
      | compare _ _ hl hr =>
        exact ⟨_, _, ⟨hl, fun id hid => hn id (.inl hid), rfl⟩, _, _,
          ⟨hr, fun id hid => hn id (.inr hid), rfl⟩, rfl, rfl⟩
  | .choose t y n p, h, d, d', c => by
    simp only [Tree.gather, Tree.ownNames, List.nil_append, Tree.draft, gives_bind, gives_pure,
      gives_draft h.1, gives_draft h.2.1, gives_draft h.2.2, List.mem_append]
    constructor
    · rintro ⟨c₁, _, ⟨ht, htn, rfl⟩, c₂, _, ⟨hy, hyn, rfl⟩, c₃, _, ⟨hn, hnn, rfl⟩, rfl, rfl⟩
      exact ⟨.choose p ht hy hn,
        fun id hid => hid.elim (fun hid => hid.elim (htn id) (hyn id)) (hnn id), rfl⟩
    · rintro ⟨hc, hnames, rfl⟩
      cases hc with
      | choose _ ht hy hn =>
        exact ⟨_, _, ⟨ht, fun id hid => hnames id (.inl (.inl hid)), rfl⟩, _, _,
          ⟨hy, fun id hid => hnames id (.inl (.inr hid)), rfl⟩, _, _,
          ⟨hn, fun id hid => hnames id (.inr hid), rfl⟩, rfl, rfl⟩

/-- Every expression has code. -/
theorem exists_drafted : {t : Tree} → t.IsExpression → ∃ c, Drafted t c
  | .literal n shown p, _ => ⟨_, .literal n shown p⟩
  | .name id shown p, _ => ⟨_, .name id shown p⟩
  | .arith op l r shown p, h => by
    obtain ⟨c, hc⟩ := exists_drafted h.1
    obtain ⟨d, hd⟩ := exists_drafted h.2
    exact ⟨_, .arith op shown p hc hd⟩
  | .compare op l r p, h => by
    obtain ⟨c, hc⟩ := exists_drafted h.1
    obtain ⟨d, hd⟩ := exists_drafted h.2
    exact ⟨_, .compare op p hc hd⟩
  | .choose t y n p, h => by
    obtain ⟨c, hc⟩ := exists_drafted h.1
    obtain ⟨d, hd⟩ := exists_drafted h.2.1
    obtain ⟨e, he⟩ := exists_drafted h.2.2
    exact ⟨_, .choose p hc hd he⟩

mutual

inductive DraftsTo : Tree → Draft → Code → Draft → Prop
  | shown {t : Tree} {c : Code} {d : Draft} (shape : t.IsShownSum) (code : Drafted t c)
      (bound : ∀ id ∈ t.names, d.bindings.contains id = true) :
      DraftsTo t d (Code.shownAt .statement true c) d
  | assign {v : Tree} {c : Code} {d : Draft} {x : Value} (id : String) (p : Position)
      (shape : v.IsValue) (value : v.value? d.bindings = some x) (code : Drafted v c)
      (bound : ∀ id ∈ v.names, d.bindings.contains id = true) :
      DraftsTo (.assign id v p) d (.set (!d.bindings.contains id) id c)
        { d with bindings := d.bindings.define id x }
  | loop {b : Tree} {body : List Tree} {cs : List Code} {d d' : Draft} {x : Value} {n : Nat}
      (p : Position) (shape : b.IsQuiet) (value : b.value? d.bindings = some x)
      (count : x.count p = .ok n)
      (block : DraftsAll body { d with counters := (d.counters.take d.bindings).2 } cs d') :
      DraftsTo (.loop b body p) d (.loop (d.counters.take d.bindings).1 n cs) d'
  | branch {t : Tree} {body last : List Tree} {others : List Branch} {c : Code}
      {cs ds : List Code} {chains : List Chain} {d d₁ d₂ d' : Draft} (p : Position)
      (shape : t.IsTest) (code : Drafted t c)
      (bound : ∀ id ∈ t.names, d.bindings.contains id = true) (block : DraftsAll body d cs d₁)
      (elifs : DraftsElifs others d₁ chains d₂) (otherwise : DraftsAll last d₂ ds d') :
      DraftsTo (.branch ⟨t, body, others, last, p⟩) d (.branch ⟨c, cs, chains, ds⟩) d'

inductive DraftsAll : List Tree → Draft → List Code → Draft → Prop
  | nil (d : Draft) : DraftsAll [] d [] d
  | cons {t : Tree} {ts : List Tree} {c : Code} {cs : List Code} {d d₁ d' : Draft}
      (head : DraftsTo t d c d₁) (tail : DraftsAll ts d₁ cs d') :
      DraftsAll (t :: ts) d (c :: cs) d'

/-- The branches after the first, none of which has branches of its own. -/
inductive DraftsElifs : List Branch → Draft → List Chain → Draft → Prop
  | nil (d : Draft) : DraftsElifs [] d [] d
  | cons {t : Tree} {body : List Tree} {others : List Branch} {c : Code} {cs : List Code}
      {chains : List Chain} {d d₁ d' : Draft} (p : Position) (shape : t.IsTest)
      (code : Drafted t c) (bound : ∀ id ∈ t.names, d.bindings.contains id = true)
      (block : DraftsAll body d cs d₁) (tail : DraftsElifs others d₁ chains d') :
      DraftsElifs (⟨t, body, [], [], p⟩ :: others) d (⟨c, cs, [], []⟩ :: chains) d'

end

/-- An expression that is a statement is drafted like any other and then printed. -/
theorem gives_draft_shown {t : Tree} (h : t.IsShownSum) {d d' : Draft} {c : Code}
    (hdraft : Gives (t.draft .statement) d c d') :
    ∃ e, Gives (t.draft .value) d e d' ∧ c = Code.shownAt .statement true e := by
  cases t with
  | literal n shown p =>
    cases h
    simp only [Tree.draft, gives_pure, Drafted.shownAt_value] at hdraft ⊢
    exact ⟨_, ⟨rfl, hdraft.2⟩, hdraft.1.symm⟩
  | name id shown p =>
    cases h
    simp only [Tree.draft, gives_bind, gives_pure, Drafted.shownAt_value] at hdraft ⊢
    obtain ⟨v, d₁, hresolve, rfl, rfl⟩ := hdraft
    exact ⟨_, ⟨v, d₁, hresolve, rfl, rfl⟩, rfl⟩
  | arith op l r shown p =>
    obtain ⟨_, _, rfl⟩ := h
    simp only [Tree.draft, gives_bind, gives_pure, Drafted.shownAt_value] at hdraft ⊢
    obtain ⟨cl, d₁, hl, cr, d₂, hr, rfl, rfl⟩ := hdraft
    exact ⟨_, ⟨cl, d₁, hl, cr, d₂, hr, rfl, rfl⟩, rfl⟩
  | _ => exact h.elim

/-- An expression that is shown is drafted by the rule for it. -/
theorem draftsTo_shown {t : Tree} (h : t.IsShownSum) {d d' : Draft} {c : Code}
    (hdraft : Gives (t.draft .statement) d c d') : DraftsTo t d c d' := by
  obtain ⟨e, he, rfl⟩ := gives_draft_shown h hdraft
  obtain ⟨hcode, hbound, rfl⟩ := (gives_draft h.isExpression d d' e).mp he
  exact .shown h hcode hbound

/-- What a draft evaluates is the value under its bindings. -/
theorem Drafting.gives_evaluate_silent {t : Tree} (h : t.IsSilent) {d d' : Draft} {v : Value} :
    Gives (Drafting.evaluate t) d v d' ↔ t.value? d.bindings = some v ∧ d' = d := by
  simp only [Drafting.gives_evaluate, h.runsSilently _ _ _]
  constructor
  · rintro ⟨m, ⟨w, hw, heq, rfl⟩, rfl⟩
    cases heq
    exact ⟨hw, rfl⟩
  · rintro ⟨hv, rfl⟩
    exact ⟨_, ⟨v, hv, rfl, rfl⟩, rfl⟩

mutual

/-- Whatever code a statement is drafted to, it comes by one of the rules. -/
theorem draftsTo : {t : Tree} → t.IsStatement → {d d' : Draft} → {c : Code} →
    Gives (t.draft .statement) d c d' → DraftsTo t d c d'
  | .program _, h, _, _, _, _ => False.elim h
  | .literal n shown p, h, _, _, _, hdraft =>
    draftsTo_shown (show (Tree.literal n shown p).IsShownSum from h) hdraft
  | .name id shown p, h, _, _, _, hdraft =>
    draftsTo_shown (show (Tree.name id shown p).IsShownSum from h) hdraft
  | .arith op l r shown p, h, _, _, _, hdraft =>
    draftsTo_shown (show (Tree.arith op l r shown p).IsShownSum from h) hdraft
  | .compare _ _ _ _, h, _, _, _, _ => False.elim h
  | .choose _ _ _ _, h, _, _, _, _ => False.elim h
  | .assign id v p, h, d, d', c, hdraft => by
    simp only [Tree.draft, gives_bind, gives_get, gives_pure, Drafting.gives_define,
      Drafting.gives_evaluate_silent (Tree.IsValue.isSilent h),
      gives_draft (Tree.IsValue.isExpression h)] at hdraft
    obtain ⟨_, _, ⟨rfl, rfl⟩, x, _, ⟨hx, rfl⟩, e, _, ⟨he, hbound, rfl⟩, _, _, rfl, rfl, rfl⟩ :=
      hdraft
    exact .assign id p h hx he hbound
  | .loop b body p, h, d, d', c, hdraft => by
    simp only [Tree.draft, gives_bind, gives_pure, Attempt.gives_ofExcept,
      Drafting.gives_takeCounter, Drafting.gives_evaluate_silent h.1.isSilent] at hdraft
    obtain ⟨x, _, ⟨hx, rfl⟩, n, _, ⟨hn, rfl⟩, _, _, ⟨rfl, rfl⟩, cs, _, hbody, rfl, rfl⟩ := hdraft
    exact .loop p h.1 hx hn (draftsAll h.2 hbody)
  | .branch (.mk t body others last p), h, d, d', c, hdraft => by
    simp only [Tree.draft, Branch.draft, gives_bind, gives_pure,
      gives_draft h.1.isExpression] at hdraft
    obtain ⟨_, _, ⟨e, _, ⟨he, hbound, rfl⟩, cs, _, hbody, chains, _, hothers, ds, _, hlast, rfl,
      rfl⟩, rfl, rfl⟩ := hdraft
    exact .branch p h.1 he hbound (draftsAll h.2.1 hbody) (draftsElifs h.2.2.1 hothers)
      (draftsAll h.2.2.2 hlast)

theorem draftsAll : {ts : List Tree} → Tree.AllStatements ts → {d d' : Draft} →
    {cs : List Code} → Gives (Tree.draftAll ts) d cs d' → DraftsAll ts d cs d'
  | [], _, d, d', cs, hdraft => by
    obtain ⟨rfl, rfl⟩ := (gives_pure ..).mp hdraft
    exact .nil d
  | t :: ts, h, d, d', cs, hdraft => by
    simp only [Tree.draftAll, gives_bind, gives_pure] at hdraft
    obtain ⟨c, _, hhead, cs, _, htail, rfl, rfl⟩ := hdraft
    exact .cons (draftsTo h.1 hhead) (draftsAll h.2 htail)

theorem draftsElifs : {bs : List Branch} → Branch.AllElifs bs → {d d' : Draft} →
    {cs : List Chain} → Gives (Branch.draftAll bs) d cs d' → DraftsElifs bs d cs d'
  | [], _, d, d', cs, hdraft => by
    obtain ⟨rfl, rfl⟩ := (gives_pure ..).mp hdraft
    exact .nil d
  | .mk t body others last p :: bs, h, d, d', cs, hdraft => by
    obtain ⟨⟨ht, hbody, rfl, rfl⟩, hbs⟩ := h
    simp only [Branch.draftAll, Branch.draft, Tree.draftAll, gives_bind, gives_pure,
      gives_draft ht.isExpression] at hdraft
    obtain ⟨_, _, ⟨e, _, ⟨he, hbound, rfl⟩, ds, _, hblock, _, _, ⟨rfl, rfl⟩, _, _, ⟨rfl, rfl⟩,
      rfl, rfl⟩, cs, _, htail, rfl, rfl⟩ := hdraft
    exact .cons p ht he hbound (draftsAll hbody hblock) (draftsElifs hbs htail)

end

mutual

/-- Drafting a statement binds the names it assigns to, wherever they are assigned, and
no other. -/
theorem DraftsTo.contains_iff {t : Tree} {c : Code} {d d' : Draft} : DraftsTo t d c d' →
    ∀ id, d'.bindings.contains id = true ↔ d.bindings.contains id = true ∨ id ∈ t.targets
  | .shown shape _ _, id => by simp [shape.isExpression.targets_eq_nil]
  | .assign x _ shape _ _ _, id => by
    simp only [Tree.gather, Tree.ownTargets, shape.isExpression.targets_eq_nil,
      Bindings.contains_define, Bool.or_eq_true, beq_iff_eq]
    grind
  | .loop _ shape _ _ block, id => by
    simp [shape.isExpression.targets_eq_nil, block.contains_iff id]
  | .branch _ shape _ _ block elifs otherwise, id => by
    simp only [Tree.gather, Tree.ownTargets, Branch.gather, shape.isExpression.targets_eq_nil,
      otherwise.contains_iff id, elifs.contains_iff id, block.contains_iff id, List.nil_append,
      List.mem_append, or_assoc]

theorem DraftsAll.contains_iff {ts : List Tree} {cs : List Code} {d d' : Draft} :
    DraftsAll ts d cs d' → ∀ id, d'.bindings.contains id = true ↔
      d.bindings.contains id = true ∨ id ∈ Tree.targetsAll ts
  | .nil _, id => by simp
  | .cons head tail, id => by
    simp [head.contains_iff id, tail.contains_iff id, or_assoc]

theorem DraftsElifs.contains_iff {bs : List Branch} {cs : List Chain} {d d' : Draft} :
    DraftsElifs bs d cs d' → ∀ id, d'.bindings.contains id = true ↔
      d.bindings.contains id = true ∨ id ∈ Branch.targetsAll bs
  | .nil _, id => by simp
  | .cons _ shape _ _ block tail, id => by
    simp [shape.isExpression.targets_eq_nil, block.contains_iff id, tail.contains_iff id, or_assoc]

end

end CSource

end Scriptlet
