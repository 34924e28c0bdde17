import Scriptlet.Proofs.Tree.Induction

/-!
What a run can do to bindings. Whatever the tree is and however its run ends, the bindings
left are the ones it began with and then some assignments, each to a name that the tree
assigns to. So no name is ever lost, and a name that is no target of the tree keeps what it
had, a value or none.
-/
namespace Scriptlet

namespace Bindings

/-- Assignments to some of the names turn the first bindings into the second. -/
inductive Rebinds (ids : List String) : Bindings → Bindings → Prop
  | refl (b : Bindings) : Rebinds ids b b
  | define {b b' : Bindings} {id : String} (before : Rebinds ids b b') (target : id ∈ ids)
      (v : Value) : Rebinds ids b (b'.define id v)

namespace Rebinds

variable {ids : List String} {b b' b'' : Bindings}

theorem trans (h : Rebinds ids b b') (h' : Rebinds ids b' b'') : Rebinds ids b b'' := by
  induction h' with
  | refl => exact h
  | define _ target v ih => exact ih.define target v

theorem contains (h : Rebinds ids b b') {id : String} (hid : b.contains id = true) :
    b'.contains id = true := by
  induction h with
  | refl => exact hid
  | define _ _ v ih => rw [contains_define, ih, Bool.or_true]

theorem get?_eq (h : Rebinds ids b b') {id : String} (hid : id ∉ ids) :
    b'.get? id = b.get? id := by
  induction h with
  | refl => rfl
  | @define b' x _ target v ih =>
    have hne : x ≠ id := fun heq => hid (heq ▸ target)
    rw [get?_define, if_neg hne, ih]

theorem eq_of_nil (h : Rebinds [] b b') : b' = b := by
  cases h with
  | refl => rfl
  | define _ target v => cases target

end Rebinds

/-- From `b` to `b'` no name is lost, and nothing changes but what the names in `ids` are
bound to. -/
structure KeepsOutside (ids : List String) (b b' : Bindings) : Prop where
  bound : ∀ id, b.contains id = true → b'.contains id = true
  others : ∀ id, id ∉ ids → b'.get? id = b.get? id
  untouched : ids = [] → b' = b

theorem Rebinds.keepsOutside {ids : List String} {b b' : Bindings} (h : Rebinds ids b b') :
    KeepsOutside ids b b' := by
  refine ⟨fun id hid => h.contains hid, fun id hid => h.get?_eq hid, fun hnil => ?_⟩
  subst hnil
  exact h.eq_of_nil

end Bindings

section Rules

variable {σ α β : Type} {view : σ → Bindings} {ids : List String} {s : σ}

/-- However it ends, the run from `s` does no more to the bindings in the state than assign to
some of the names. -/
def RebindsOnly (view : σ → Bindings) (ids : List String) (x : Attempt σ α) (s : σ) : Prop :=
  Bindings.Rebinds ids (view s) (view (x.run s).2)

theorem rebindsOnly_of_eq {x : Attempt σ α} (h : view (x.run s).2 = view s) :
    RebindsOnly view ids x s := by
  rw [RebindsOnly, h]
  exact .refl (view s)

theorem RebindsOnly.bind {x : Attempt σ α} {k : α → Attempt σ β} (hx : RebindsOnly view ids x s)
    (hk : ∀ a t, Gives x s a t → RebindsOnly view ids (k a) t) :
    RebindsOnly view ids (x >>= k) s := by
  unfold RebindsOnly at hx ⊢
  rw [run_bind]
  cases hrun : x.run s with
  | mk r t =>
    rw [hrun] at hx
    cases r with
    | error e => exact hx
    | ok a => exact hx.trans (hk a t hrun)

theorem Attempt.rebindsOnly_ofExcept (r : Except RunError α) :
    RebindsOnly view ids (ofExcept r) s := by
  cases r <;> exact rebindsOnly_of_eq rfl

theorem Attempt.rebindsOnly_resolve (id : String) (p : Position) :
    RebindsOnly view ids (resolve view id p) s :=
  RebindsOnly.bind (rebindsOnly_of_eq rfl) fun _ _ _ => rebindsOnly_ofExcept _

end Rules

theorem Run.rebindsOnly_give (ids : List String) (v : Value) (shown : Bool) (m : Machine) :
    RebindsOnly Machine.bindings ids (give v shown) m := by
  cases shown with
  | false => exact rebindsOnly_of_eq rfl
  | true =>
    refine RebindsOnly.bind (rebindsOnly_of_eq ?_) fun _ _ _ => rebindsOnly_of_eq rfl
    rw [run_print]

/-- A run rebinds only what its tree assigns to, whether it fails or not. -/
theorem rebindsOnly_runRules (ids : List String) : RunRules id (fun a => a.targets ⊆ ids)
    (fun _ run _ m => RebindsOnly Machine.bindings ids run m) where
  part h hholds := List.Subset.trans hholds.gather_subset h
  of_pure _ := rebindsOnly_of_eq rfl
  bind hrun hnext := hrun.bind hnext
  enters _ h := h
  resolve _ := Attempt.rebindsOnly_resolve _ _
  give _ _ := Run.rebindsOnly_give ..
  fault _ _ := rebindsOnly_of_eq rfl
  needed {_ _ a _ _} _ _ _ _ := by cases a <;> exact rebindsOnly_of_eq rfl
  define h _ := (Bindings.Rebinds.refl _).define (h List.mem_cons_self) _
  count _ := Attempt.rebindsOnly_ofExcept _

section Trees

variable {ids : List String}

/-- A tree rebinds only the names it assigns to. -/
theorem Tree.rebindsOnly_run {t : Tree} (h : t.targets ⊆ ids) (m : Machine) :
    RebindsOnly Machine.bindings ids t.run m :=
  (rebindsOnly_runRules ids).tree t h 0 m

theorem Tree.rebindsOnly_runAll {ts : List Tree} (h : Tree.targetsAll ts ⊆ ids) (m : Machine) :
    RebindsOnly Machine.bindings ids (Tree.runAll ts) m :=
  (rebindsOnly_runRules ids).block ts h 0 m

theorem Tree.rebindsOnly_runValue {t : Tree} (h : t.targets ⊆ ids) (m : Machine) :
    RebindsOnly Machine.bindings ids t.runValue m := by
  refine (Tree.rebindsOnly_run h m).bind fun a _ _ => ?_
  cases a <;> exact rebindsOnly_of_eq rfl

end Trees

/-- A run changes only what is assigned to. -/
theorem Tree.get?_run {t : Tree} {id : String} {m m' : Machine} {a : Option Value}
    (hid : id ∉ t.targets) (h : Gives t.run m a m') :
    m'.bindings.get? id = m.bindings.get? id := by
  have hrebinds := Tree.rebindsOnly_run (List.Subset.refl t.targets) m
  rw [RebindsOnly, show t.run.run m = _ from h] at hrebinds
  exact hrebinds.get?_eq hid

/-- A name that no statement assigns to keeps its value. -/
theorem Tree.get?_runAll {ts : List Tree} {id : String} {m m' : Machine}
    (hid : id ∉ Tree.targetsAll ts) (h : Gives (Tree.runAll ts) m () m') :
    m'.bindings.get? id = m.bindings.get? id := by
  have hrebinds := Tree.rebindsOnly_runAll (List.Subset.refl (Tree.targetsAll ts)) m
  rw [RebindsOnly, show (Tree.runAll ts).run m = _ from h] at hrebinds
  exact hrebinds.get?_eq hid

end Scriptlet
