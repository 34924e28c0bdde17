import Scriptlet.Proofs.CSource.Stops
import Scriptlet.Proofs.Grammar.Mentions
import Scriptlet.Proofs.Token.Places

/-!
Names are declared once and before they are used. The tokens of a script say in which order
its names are assigned and used. A script has a C text only if each name is assigned before
it is used; then the text sets the names in the same order and declares each where it is first
set. If the text is refused for a name, then the name is used where the error says and is
not assigned before.
-/
namespace Scriptlet

namespace Script

open CSource

theorem parse_eq_program {source : String} {t : Tree} (h : parse source = .ok t) :
    ∃ body, t = .program body := by
  obtain ⟨ts, _, hphrase⟩ := phrase_of_parse h
  cases hphrase with
  | statements all => exact ⟨_, rfl⟩

theorem parse_ne_run (source : String) (e : RunError) : parse source ≠ .error (.run e) := by
  unfold parse
  split
  · simp
  · split <;> simp

/-- Only what can be read has a C text. -/
theorem exists_parse_of_toC {source text : String} {step : Nat}
    (h : toC source step = .ok text) : ∃ body, parse source = .ok (.program body) := by
  unfold toC at h
  cases hparse : parse source with
  | error e => simp [hparse] at h
  | ok t =>
    obtain ⟨body, rfl⟩ := parse_eq_program hparse
    exact ⟨body, rfl⟩

/-- A C text that is refused while it is drafted. -/
theorem exists_fails_of_toC {source : String} {step : Nat} {e : RunError}
    (h : toC source step = .error (.run e)) :
    ∃ body d, parse source = .ok (.program body) ∧ Fails (Tree.draftAll body) {} e d := by
  unfold toC at h
  cases hparse : parse source with
  | error e' =>
    rw [hparse] at h
    cases h
    exact absurd hparse (parse_ne_run source e)
  | ok t =>
    obtain ⟨body, rfl⟩ := parse_eq_program hparse
    rw [hparse] at h
    cases hdraft : ((Tree.program body).draft .statement).run {} with
    | mk result d =>
      cases result with
      | ok code => simp [hdraft] at h
      | error e' =>
        simp only [hdraft, Except.error.injEq, ScriptError.run.injEq] at h
        subst h
        have hfails : Fails ((Tree.program body).draft .statement) {} e' d := hdraft
        simp only [Tree.draft, fails_bind, not_fails_pure, and_false, exists_false,
          or_false] at hfails
        exact ⟨body, d, rfl, hfails⟩

/-- The names are mentioned in the tokens as they are in the tree. -/
theorem mentions_of_parse {source : String} {ts : List Token} {body : List Tree}
    (hscan : Token.scan source = .ok ts) (hparse : parse source = .ok (.program body)) :
    Token.mentions ts = mentions (Tree.outlineAll body) := by
  obtain ⟨us, hscan', hphrase⟩ := phrase_of_parse hparse
  obtain rfl : ts = us := Except.ok.inj (hscan.symm.trans hscan')
  exact hphrase.mentions_eq

end Script

/-- At one place only one name is used, after the same mentions. -/
theorem uses_unique {ms before before' after after' : List Mention} {id id' : String}
    {p : Position} (hnodup : (ms.filterMap Mention.pos?).Nodup)
    (h : ms = before ++ .uses id p :: after) (h' : ms = before' ++ .uses id' p :: after') :
    before = before' ∧ id = id' := by
  have htwice {xs ys zs : List Mention} {x y : String}
      (hms : ms = xs ++ .uses x p :: (ys ++ .uses y p :: zs)) : False := by
    rw [hms] at hnodup
    simp [List.nodup_append, Mention.pos?] at hnodup
  rcases List.append_eq_append_iff.mp (h.symm.trans h') with ⟨mid, rfl, hmid⟩ | ⟨mid, rfl, hmid⟩
  · cases mid with
    | nil =>
      cases hmid
      exact ⟨(List.append_nil before).symm, rfl⟩
    | cons m mid =>
      obtain ⟨rfl, rfl⟩ := List.cons.inj hmid
      exact (htwice h).elim
  · cases mid with
    | nil =>
      cases hmid
      exact ⟨List.append_nil before', rfl⟩
    | cons m mid =>
      obtain ⟨rfl, rfl⟩ := List.cons.inj hmid
      exact (htwice h').elim

namespace CSource

open C

/-- The text sets the names that the script assigns, in the same order. -/
theorem Emits.filterMap_target {es : List Entry} {xs : List Event} {d d' : Draft}
    (h : Emits es d xs d') :
    xs.filterMap Event.target? = (mentions es).filterMap Mention.assigned? := by
  induction h with
  | nil d => rfl
  | cons head _ ih =>
    cases head with
    | assigns id p value => exact congrArg (id :: ·) ih
    | repeats value count bound =>
      rw [mentions_cons, List.filterMap_append, Entry.mentions,
        Mention.filterMap_assigned_ofReferences]
      exact ih
    | _ => exact ih

/-- A script and the names in its tokens. If it has a C text, the text sets the names that the
tokens assign, in the same order; each is declared where it is first set and nowhere else; and
each use of a name stands after an assignment to it. If each use does, then no C text is
refused for a name that is not bound. If it is refused for one, the name is what is used
at the place of the error, and no assignment to it stands before that. -/
theorem names_declared_before_use {source : String} {ts : List Token}
    (hscan : Token.scan source = .ok ts) (step : Nat) :
    (∀ text, Script.toC source step = .ok text →
      ∃ events, C.outline text = some events ∧
        events.filterMap Event.target? = (Token.mentions ts).filterMap Mention.assigned? ∧
        (∀ id, .assigns id ∈ Token.mentions ts →
          ∃ before after, events = before ++ .sets true id :: after ∧
            (∀ declares, Event.sets declares id ∉ before) ∧ Event.sets true id ∉ after) ∧
        ∀ before id p after, Token.mentions ts = before ++ .uses id p :: after →
          .assigns id ∈ before) ∧
    ((∀ before id p after, Token.mentions ts = before ++ .uses id p :: after →
        .assigns id ∈ before) →
      ∀ id p, Script.toC source step ≠ .error (.run (.unbound id p))) ∧
    ∀ id p, Script.toC source step = .error (.run (.unbound id p)) →
      (∃ before after, Token.mentions ts = before ++ .uses id p :: after) ∧
      ∀ before id' after, Token.mentions ts = before ++ .uses id' p :: after →
        id' = id ∧ .assigns id ∉ before := by
  have hplaces : ((Token.mentions ts).filterMap Mention.pos?).Nodup :=
    (Token.nodup_pos_of_scan hscan).sublist (Token.sublist_places .none ts)
  have hblamed id p (herror : Script.toC source step = .error (.run (.unbound id p))) :
      ∃ before after, Token.mentions ts = before ++ .uses id p :: after ∧
        .assigns id ∉ before := by
    obtain ⟨body, d, hparse, hfails⟩ := Script.exists_fails_of_toC herror
    have hstops := stopsIn_draftAll (Script.allStatements_of_parse hparse) hfails
    obtain ⟨_, before, after, hsplit, hbefore⟩ := hstops.blames id p rfl
    exact ⟨before, after, (Script.mentions_of_parse hscan hparse).trans hsplit, hbefore⟩
  refine ⟨fun text htext => ?_, fun hassigned id p herror => ?_, fun id p herror => ?_⟩
  · obtain ⟨body, hparse⟩ := Script.exists_parse_of_toC htext
    obtain ⟨events, d, houtline, hemits⟩ := emits_of_toC hparse htext
    rw [Script.mentions_of_parse hscan hparse]
    refine ⟨events, houtline, hemits.filterMap_target, fun id hid => ?_,
      fun before id p after hsplit => ?_⟩
    · obtain ⟨outer, v, p, inner, hfirst, houter⟩ := exists_first_assignment hid
      rw [hfirst] at hemits
      obtain ⟨before, after, hevents, hbefore, hafter, _⟩ := hemits.declares_first rfl houter
      exact ⟨before, after, hevents, hbefore, hafter⟩
    · rcases hemits.assigned_before_use hsplit with hbound | hmem
      · simp [Bindings.contains_eq_isSome] at hbound
      · exact hmem
  · obtain ⟨before, after, hsplit, hbefore⟩ := hblamed id p herror
    exact hbefore (hassigned before id p after hsplit)
  · obtain ⟨before, after, hsplit, hbefore⟩ := hblamed id p herror
    refine ⟨⟨before, after, hsplit⟩, fun before' id' after' hsplit' => ?_⟩
    obtain ⟨rfl, rfl⟩ := uses_unique hplaces hsplit hsplit'
    exact ⟨rfl, hbefore⟩

/-- The tokens of `let x = x;`. -/
def selfAssigned : List Token :=
  [⟨.keyword .letWord, ⟨1, 1⟩⟩, ⟨.identifier "x", ⟨1, 5⟩⟩, ⟨.mark .equals, ⟨1, 7⟩⟩,
    ⟨.identifier "x", ⟨1, 9⟩⟩, ⟨.mark .semicolon, ⟨1, 10⟩⟩]

/-- The tokens of `let y = 1; let y = y + 2; y;`. -/
def setTwice : List Token :=
  [⟨.keyword .letWord, ⟨1, 1⟩⟩, ⟨.identifier "y", ⟨1, 5⟩⟩, ⟨.mark .equals, ⟨1, 7⟩⟩,
    ⟨.integer 1, ⟨1, 9⟩⟩, ⟨.mark .semicolon, ⟨1, 10⟩⟩, ⟨.keyword .letWord, ⟨1, 12⟩⟩,
    ⟨.identifier "y", ⟨1, 16⟩⟩, ⟨.mark .equals, ⟨1, 18⟩⟩, ⟨.identifier "y", ⟨1, 20⟩⟩,
    ⟨.mark .plus, ⟨1, 22⟩⟩, ⟨.integer 2, ⟨1, 24⟩⟩, ⟨.mark .semicolon, ⟨1, 25⟩⟩,
    ⟨.identifier "y", ⟨1, 27⟩⟩, ⟨.mark .semicolon, ⟨1, 28⟩⟩]

def setTwiceBody : List Tree :=
  [.assign "y" (.literal 1 false ⟨1, 9⟩) ⟨1, 1⟩,
    .assign "y" (.arith .add (.name "y" false ⟨1, 20⟩) (.literal 2 false ⟨1, 24⟩) false ⟨1, 22⟩)
      ⟨1, 12⟩,
    .name "y" true ⟨1, 27⟩]

/-- An assignment does not bind its name within its own value. A second assignment does not
declare the name again, and may use it. -/
theorem selfAssigned_refused :
    (Token.scan "let x = x;" = .ok selfAssigned ∧
      Script.toC "let x = x;" 4 = .error (.run (.unbound "x" ⟨1, 9⟩)) ∧
      Token.mentions selfAssigned = [.uses "x" ⟨1, 9⟩, .assigns "x"] ∧
      ∀ before id after, Token.mentions selfAssigned = before ++ .uses id ⟨1, 9⟩ :: after →
        id = "x" ∧ .assigns "x" ∉ before) ∧
    Token.scan "let y = 1; let y = y + 2; y;" = .ok setTwice ∧
    Token.mentions setTwice =
      [.assigns "y", .uses "y" ⟨1, 20⟩, .assigns "y", .uses "y" ⟨1, 27⟩] ∧
    ∃ text events, Script.toC "let y = 1; let y = y + 2; y;" 4 = .ok text ∧
      C.outline text = some events ∧ events.filterMap Event.target? = ["y", "y"] ∧
      ∃ before after, events = before ++ .sets true "y" :: after ∧
        (∀ declares, Event.sets declares "y" ∉ before) ∧ Event.sets true "y" ∉ after := by
  have hscan : Token.scan "let x = x;" = .ok selfAssigned := by with_unfolding_all rfl
  have herror : Script.toC "let x = x;" 4 = .error (.run (.unbound "x" ⟨1, 9⟩)) := by
    with_unfolding_all rfl
  have hscan' : Token.scan "let y = 1; let y = y + 2; y;" = .ok setTwice := by
    with_unfolding_all rfl
  have hparse : Script.parse "let y = 1; let y = y + 2; y;" = .ok (.program setTwiceBody) := by
    with_unfolding_all rfl
  have hdraft : (((Tree.program setTwiceBody).draft .statement).run {}).1 =
      .ok (.main [.set true "y" (.number 1), .set false "y" (.arith .add (.var "y") (.number 2)),
        .print (.var "y")]) := rfl
  have htext := Script.toC_of_draft hparse hdraft 4
  obtain ⟨_, _, hrefused⟩ := names_declared_before_use hscan 4
  obtain ⟨haccepts, _, _⟩ := names_declared_before_use hscan' 4
  refine ⟨⟨hscan, herror, rfl, (hrefused "x" ⟨1, 9⟩ herror).2⟩, hscan', rfl, ?_⟩
  obtain ⟨events, houtline, htargets, hdeclared, _⟩ := haccepts _ htext
  exact ⟨_, events, htext, houtline, htargets, hdeclared "y" (by decide)⟩

end CSource

end Scriptlet
