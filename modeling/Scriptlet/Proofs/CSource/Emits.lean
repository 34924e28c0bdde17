import Scriptlet.Proofs.CSource.Outline
import Scriptlet.Proofs.Grammar.Names
import Scriptlet.Proofs.Tree.Outline

/-!
Drafting goes through the outline of a script once, from one end to the other. Each entry
becomes one event of the code, by the bindings and counters that the entries before it left.
So what is said of the order of things in a script can be said of the order in its C text.
-/
namespace Scriptlet.CSource

open C

/-- One entry and the event it becomes, with the draft before and after. -/
inductive Step : Draft → Entry → Event → Draft → Prop
  | uses {d : Draft} {id : String} (p : Position) (bound : d.bindings.contains id = true) :
      Step d (.uses id p) (.uses id) d
  | assigns {d : Draft} {v : Tree} {x : Value} (id : String) (p : Position)
      (value : v.value? d.bindings = some x) :
      Step d (.assigns id v p) (.sets (!d.bindings.contains id) id)
        { d with bindings := d.bindings.define id x }
  | repeats {d : Draft} {b : Tree} {p : Position} {x : Value} {n : Nat}
      (value : b.value? d.bindings = some x) (count : x.count p = .ok n)
      (bound : ∀ r ∈ b.references, d.bindings.contains r.1 = true) :
      Step d (.repeats b p) (.loops (d.counters.take d.bindings).1 n)
        { d with counters := (d.counters.take d.bindings).2 }
  | opens (d : Draft) : Step d .opens .opens d
  | closes (d : Draft) : Step d .closes .closes d

/-- Only an assignment sets a name, and it declares it where it is not bound yet. -/
theorem Step.of_sets {d d' : Draft} {e : Entry} {declares : Bool} {id : String}
    (h : Step d e (.sets declares id) d') :
    declares = !d.bindings.contains id ∧ .assigns id ∈ e.mentions := by
  generalize hx : Event.sets declares id = x at h
  cases h with
  | assigns id' p value =>
    obtain ⟨rfl, rfl⟩ := Event.sets.inj hx
    exact ⟨rfl, List.mem_singleton_self _⟩
  | _ => cases hx

/-- What needs a variable comes from an entry that names it, where it is bound. -/
theorem Step.bound_of_needs {d d' : Draft} {e : Entry} {x : Event} {id : String}
    (h : Step d e x d') (hx : x.needs? = some id) :
    d.bindings.contains id = true ∧ e.name? = some id := by
  cases h with
  | uses p bound =>
    cases hx
    exact ⟨bound, rfl⟩
  | @assigns v y id' p value =>
    cases hbound : d.bindings.contains id' with
    | false => simp [hbound, Event.needs?] at hx
    | true =>
      obtain rfl : id' = id := by simpa [hbound, Event.needs?] using hx
      exact ⟨hbound, rfl⟩
  | _ => cases hx

/-- An entry that names what is bound becomes an event that needs it. -/
theorem Step.needs_of_bound {d d' : Draft} {e : Entry} {x : Event} {id : String}
    (h : Step d e x d') (he : e.name? = some id) (hbound : d.bindings.contains id = true) :
    x.needs? = some id := by
  cases h with
  | uses p bound => exact he
  | assigns id' p value =>
    cases he
    simp [hbound, Event.needs?]
  | _ => cases he

/-- A name that is mentioned at an entry other than to assign it is bound there. -/
theorem Step.bound_of_uses {d d' : Draft} {e : Entry} {x : Event} {id : String} {p : Position}
    (h : Step d e x d') (hmem : .uses id p ∈ e.mentions) : d.bindings.contains id = true := by
  cases h with
  | uses q bound =>
    obtain ⟨rfl, rfl⟩ : id = _ ∧ p = q := by simpa [Entry.mentions] using hmem
    exact bound
  | repeats value count bound => exact bound (id, p) (by simpa [Entry.mentions] using hmem)
  | _ => simp [Entry.mentions] at hmem

inductive Emits : List Entry → Draft → List Event → Draft → Prop
  | nil (d : Draft) : Emits [] d [] d
  | cons {e : Entry} {es : List Entry} {x : Event} {xs : List Event} {d d₁ d' : Draft}
      (head : Step d e x d₁) (tail : Emits es d₁ xs d') : Emits (e :: es) d (x :: xs) d'

namespace Emits

variable {es fs : List Entry} {xs ys : List Event} {d d₁ d' : Draft}

theorem append (h : Emits es d xs d₁) (h' : Emits fs d₁ ys d') :
    Emits (es ++ fs) d (xs ++ ys) d' := by
  induction h with
  | nil d => exact h'
  | cons head _ ih => exact .cons head (ih h')

theorem block (h : Emits es d xs d') : Emits (Entry.block es) d (Event.block xs) d' :=
  .cons (.opens d) (h.append (.cons (.closes d') (.nil d')))

theorem references {rs : List (String × Position)} (d : Draft)
    (h : ∀ r ∈ rs, d.bindings.contains r.1 = true) :
    Emits (Entry.ofReferences rs) d ((rs.map Prod.fst).map .uses) d := by
  induction rs with
  | nil => exact .nil d
  | cons r rs ih =>
    exact .cons (.uses r.2 (h r List.mem_cons_self))
      (ih fun r' hr' => h r' (List.mem_cons_of_mem _ hr'))

/-- Entries in two parts become events in two parts. -/
theorem split (h : Emits (es ++ fs) d xs d') :
    ∃ ys zs d₁, xs = ys ++ zs ∧ Emits es d ys d₁ ∧ Emits fs d₁ zs d' := by
  induction es generalizing d xs with
  | nil => exact ⟨[], xs, d, rfl, .nil d, h⟩
  | cons e es ih =>
    cases h with
    | cons head tail =>
      obtain ⟨ys, zs, d₁, rfl, hes, hfs⟩ := ih tail
      exact ⟨_ :: ys, zs, d₁, rfl, .cons head hes, hfs⟩

/-- Events in two parts come from entries in two parts. -/
theorem split_events (h : Emits es d (xs ++ ys) d') :
    ∃ fs gs d₁, es = fs ++ gs ∧ Emits fs d xs d₁ ∧ Emits gs d₁ ys d' := by
  induction xs generalizing d es with
  | nil => exact ⟨[], es, d, rfl, .nil d, h⟩
  | cons x xs ih =>
    cases h with
    | cons head tail =>
      obtain ⟨fs, gs, d₁, rfl, hfs, hgs⟩ := ih tail
      exact ⟨_ :: fs, gs, d₁, rfl, .cons head hfs, hgs⟩

/-- Blocks are opened and closed in the events as in the entries. -/
theorem map_depth (h : Emits es d xs d') : xs.map Event.depth = es.map Entry.depth := by
  induction h with
  | nil d => rfl
  | cons head _ ih =>
    rw [List.map_cons, List.map_cons, ih]
    cases head <;> rfl

/-- Drafting makes the assignments of the outline. -/
theorem make?_eq (h : Emits es d xs d') : make? es d.bindings = some d'.bindings := by
  induction h with
  | nil d => rfl
  | cons head _ ih =>
    cases head with
    | assigns id p value =>
      rw [make?, Entry.make?, value]
      exact ih
    | _ => exact ih

/-- What is bound after the entries: what was bound before, and what they assign. -/
theorem contains_iff (h : Emits es d xs d') (id : String) :
    d'.bindings.contains id = true ↔
      d.bindings.contains id = true ∨ .assigns id ∈ mentions es :=
  contains_make? h.make?_eq id

/-- A name is bound or assigned before it is used, in a bound of a loop as well. -/
theorem assigned_before_use (h : Emits es d xs d') {before after : List Mention} {id : String}
    {p : Position} (hsplit : mentions es = before ++ .uses id p :: after) :
    d.bindings.contains id = true ∨ .assigns id ∈ before := by
  induction h generalizing before with
  | nil d => simp at hsplit
  | @cons e es x xs d d₁ d' head tail ih =>
    have hlater {rest : List Mention} (hrest : mentions es = rest ++ .uses id p :: after) :
        d.bindings.contains id = true ∨ .assigns id ∈ e.mentions ++ rest := by
      have hstep := (Emits.cons head (.nil d₁)).contains_iff id
      rw [mentions_cons, mentions_nil, List.append_nil] at hstep
      rcases ih hrest with hbound | hassigned
      · exact (hstep.mp hbound).imp_right (List.mem_append_left _)
      · exact .inr (List.mem_append_right _ hassigned)
    rw [mentions_cons] at hsplit
    rcases List.append_eq_append_iff.mp hsplit with ⟨rest, rfl, hrest⟩ | ⟨rest, he, hrest⟩
    · exact hlater hrest
    · cases rest with
      | nil =>
        have hrest' : mentions es = [] ++ .uses id p :: after := hrest.symm
        simpa [he] using hlater hrest'
      | cons first rest =>
        obtain ⟨rfl, _⟩ := List.cons.inj hrest
        have hmem : .uses id p ∈ e.mentions := by simp [he]
        exact .inl (head.bound_of_uses hmem)

/-- A name that is set was assigned. -/
theorem assigns_of_sets (h : Emits es d xs d') {declares : Bool} {id : String}
    (hmem : Event.sets declares id ∈ xs) : .assigns id ∈ mentions es := by
  obtain ⟨before, after, rfl⟩ := List.append_of_mem hmem
  obtain ⟨fs, gs, d₁, rfl, _, hgs⟩ := h.split_events
  cases hgs with
  | cons head _ => simp [head.of_sets.2]

/-- A name that is bound is not declared again. -/
theorem not_declares (h : Emits es d xs d') (id : String)
    (hid : d.bindings.contains id = true) : Event.sets true id ∉ xs := by
  intro hmem
  obtain ⟨before, after, rfl⟩ := List.append_of_mem hmem
  obtain ⟨fs, gs, d₁, rfl, hfs, hgs⟩ := h.split_events
  have hbound := (hfs.contains_iff id).mpr (.inl hid)
  cases hgs with
  | cons head _ => simpa [hbound] using head.of_sets.1

/-- The first assignment to a name declares it, and no other one does. -/
theorem declares_first {outer inner : List Entry} {id : String} {v : Tree} {p : Position}
    (h : Emits (outer ++ .assigns id v p :: inner) d xs d')
    (hnew : d.bindings.contains id = false) (hfirst : .assigns id ∉ mentions outer) :
    ∃ before after, xs = before ++ .sets true id :: after ∧
      (∀ declares, Event.sets declares id ∉ before) ∧ Event.sets true id ∉ after ∧
      after.map Event.depth = inner.map Entry.depth := by
  obtain ⟨before, _, d₁, rfl, houter, hrest⟩ := h.split
  have hfresh : d₁.bindings.contains id = false := by
    rw [← Bool.not_eq_true, houter.contains_iff id]
    simp [hnew, hfirst]
  cases hrest with
  | @cons _ _ _ after _ _ _ head tail =>
    cases head with
    | assigns id p value =>
      have hlater := tail.not_declares id (by simp [Bindings.contains_define])
      refine ⟨before, after, by rw [hfresh]; rfl, fun declares hmem => hfirst ?_, hlater,
        tail.map_depth⟩
      exact houter.assigns_of_sets hmem

/-- Whatever has to be in scope is assigned before. -/
theorem split_needs (h : Emits es {} xs d') {before after : List Event} {x : Event}
    {id : String} (hsplit : xs = before ++ x :: after) (hx : x.needs? = some id) :
    ∃ fs e gs d₁, es = fs ++ e :: gs ∧ Emits fs {} before d₁ ∧ e.name? = some id ∧
      .assigns id ∈ mentions fs := by
  subst hsplit
  obtain ⟨fs, _, d₁, rfl, hfs, hrest⟩ := h.split_events
  cases hrest with
  | @cons e gs _ _ _ _ _ head _ =>
    obtain ⟨hbound, hname⟩ := head.bound_of_needs hx
    refine ⟨fs, e, gs, d₁, rfl, hfs, hname, ?_⟩
    simpa [Bindings.contains_eq_isSome] using (hfs.contains_iff id).mp hbound

/-- Nothing is needed before it is declared. -/
theorem declared_before (h : Emits es {} xs d') {before after : List Event} {x : Event}
    {id : String} (hsplit : xs = before ++ x :: after) (hx : x.needs? = some id) :
    Event.sets true id ∈ before := by
  obtain ⟨fs, e, gs, d₁, _, hfs, _, hassigned⟩ := h.split_needs hsplit hx
  obtain ⟨outer, v, p, inner, rfl, hfirst⟩ := exists_first_assignment hassigned
  obtain ⟨xo, xi, rfl, _⟩ := hfs.declares_first rfl hfirst
  simp

end Emits

/-- The variables of the code are the names of the expression. -/
theorem Drafted.used_eq {t : Tree} {c : Code} (h : Drafted t c) :
    c.used = t.references.map Prod.fst := by
  induction h with
  | literal | name => rfl
  | arith _ _ _ _ _ ihl ihr | compare _ _ _ _ ihl ihr =>
    simp [Code.used, Tree.references, ihl, ihr]
  | choose _ _ _ _ iht ihy ihn => simp [Code.used, Tree.references, iht, ihy, ihn]

/-- The names of an expression become uses, in their order. -/
theorem Drafted.emits {t : Tree} {c : Code} {d : Draft} (h : Drafted t c)
    (hexpr : t.IsExpression) (hbound : ∀ id ∈ t.names, d.bindings.contains id = true) :
    Emits (Entry.ofReferences t.references) d (c.used.map .uses) d := by
  rw [h.used_eq]
  exact .references d (hexpr.contains_references hbound)

theorem events_shownAt (c : Code) :
    (Code.shownAt .statement true c).events = c.used.map .uses := by
  cases c <;> rfl

mutual

/-- The outline of a statement becomes the events of its code. -/
theorem DraftsTo.emits {t : Tree} {c : Code} {d d' : Draft} : DraftsTo t d c d' →
    Emits t.outline d c.events d'
  | .shown shape code bound => by
    rw [shape.outline_eq, events_shownAt]
    exact code.emits shape.isExpression bound
  | .assign id p shape value code bound =>
    (code.emits shape.isExpression bound).append (.cons (.assigns id p value) (.nil _))
  | .loop p shape value count block =>
    .cons (.repeats value count
      (shape.isExpression.contains_references (shape.contains_of_value? value))) block.emits.block
  | .branch p shape code bound block elifs otherwise => by
    refine (code.emits shape.isExpression bound).append
      (block.emits.block.append (elifs.emits.append ?_))
    cases otherwise with
    | nil => exact .nil d'
    | cons head tail => exact (head.emits.append tail.emits).block

theorem DraftsAll.emits {ts : List Tree} {cs : List Code} {d d' : Draft} :
    DraftsAll ts d cs d' → Emits (Tree.outlineAll ts) d (Code.eventsAll cs) d'
  | .nil d => .nil d
  | .cons head tail => head.emits.append tail.emits

theorem DraftsElifs.emits {bs : List Branch} {cs : List Chain} {d d' : Draft} :
    DraftsElifs bs d cs d' → Emits (Branch.outlineAll bs) d (Chain.eventsAll cs) d'
  | .nil d => .nil d
  | .cons p shape code bound block tail =>
    ((code.emits shape.isExpression bound).append
      (block.emits.block.append (.nil _))).append tail.emits

end

/-- The text of a drafted script reads as the events of its code. -/
theorem DraftsAll.outline_text {source : String} {body : List Tree} {cs : List Code}
    {d d' : Draft} (h : DraftsAll body d cs d')
    (hparse : Script.parse source = .ok (.program body)) (step : Nat) :
    C.outline ((Code.main cs).text step 0) = some (Code.eventsAll cs) := by
  have hwords := h.allStatements (fun n => (isVariable_counter n).1)
    fun id hid => isWord_of_isName (Script.isName_of_parse hparse hid)
  exact outline_main hwords step

/-- The C text of a script, read as events, comes from the outline of the script. -/
theorem emits_of_toC {source text : String} {body : List Tree} {step : Nat}
    (hparse : Script.parse source = .ok (.program body))
    (htext : Script.toC source step = .ok text) :
    ∃ events d, C.outline text = some events ∧ Emits (Tree.outlineAll body) {} events d := by
  obtain ⟨cs, d, hdraft, rfl⟩ := Script.draftsAll_of_toC hparse htext
  exact ⟨Code.eventsAll cs, d, hdraft.outline_text hparse step, hdraft.emits⟩

end Scriptlet.CSource
