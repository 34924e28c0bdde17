import Scriptlet.Proofs.CSource.Simulation
import Scriptlet.Proofs.Grammar.Names

/-!
Scripts that print the same as C programs. A script is portable if it has no division, declares
its variables at the top, repeats a constant number of times, and uses no name that
means something else in the C text. While its integers are small, the C text of a portable
script prints what running the script prints, and then the line with the time.
-/
namespace Scriptlet

namespace CSource

open C

/-- The variables of the outermost block are those the draft has seen, with the values they
have in the script. -/
structure Mirrors (d : Draft) (b : Bindings) (top : Scope) : Prop where
  agrees : Agrees (d.bindings.contains · = true) b (Scope.lookup [top])
  undeclared : ∀ id, d.bindings.contains id = false → top id = none

theorem lookup_singleton (top : Scope) : Scope.lookup [top] = top := by
  funext x
  simp [Scope.lookup]

/-- A first assignment becomes a declaration. -/
theorem Mirrors.declare {d : Draft} {b : Bindings} {top : Scope} (h : Mirrors d b top)
    (id : String) (n : Int64) (x : Value) :
    Mirrors { d with bindings := d.bindings.define id x } (b.define id (.integer n))
      (top.set id n.toInt) where
  agrees y hy := by
    by_cases heq : y = id
    · exact ⟨n, by simp [heq], by simp [lookup_singleton, Scope.set, heq]⟩
    · have hbound : d.bindings.contains y = true := by
        simpa [Bindings.contains_define, Ne.symm heq] using hy
      obtain ⟨i, hi, hlookup⟩ := h.agrees y hbound
      rw [lookup_singleton] at hlookup
      exact ⟨i, by simp [Ne.symm heq, hi], by simp [lookup_singleton, Scope.set, heq, hlookup]⟩
  undeclared y hy := by
    simp only [Bindings.contains_define, Bool.or_eq_false_iff, beq_eq_false_iff_ne] at hy
    simp [Scope.set, Ne.symm hy.1, h.undeclared y hy.2]

/-- A statement of the script itself: its variables are declared, or it declares one. -/
theorem DraftsTo.exec_top {t : Tree} {c : Code} {d d₁ : Draft} (hdraft : DraftsTo t d c d₁)
    (htop : ∀ id ∈ t.targets, d.bindings.contains id = true ∨ ∃ v p, t = .assign id v p)
    (hfresh : ∀ n, d.bindings.contains (Counters.name n) = false) {k : Nat} {m m₁ : Machine}
    (hplain : Visit.IsPlain ⟨.tree t, k, m⟩) {a : Option Value} (hrun : Gives t.run m a m₁)
    {top : Scope} (hmirrors : Mirrors d m.bindings top) :
    ∃ top' out, Exec c.stmt [top] [top'] out ∧ m₁.output.text = m.output.text ++ out ∧
      Mirrors d₁ m₁.bindings top' := by
  by_cases hold : ∀ id ∈ t.targets, d.bindings.contains id = true
  · obtain ⟨_, out, hexec, hout, hagrees, hkeeps⟩ := hdraft.follows (by simp [hfresh])
      (fun _ => Iff.rfl) ⟨hplain, hold⟩ hrun [top] hmirrors.agrees
    have hbound id : d₁.bindings.contains id = d.bindings.contains id := by
      rw [Bool.eq_iff_iff, hdraft.contains_iff id]
      exact ⟨fun h => h.elim (fun h => h) (hold id), .inl⟩
    cases hkeeps with
    | @cons _ top' _ _ same declared outer =>
      cases outer
      refine ⟨top', out, hexec, hout, fun id hid => hagrees id ((hbound id).symm.trans hid), ?_⟩
      intro id hid
      have hundeclared := hmirrors.undeclared id (hbound id ▸ hid)
      have hsame := declared id
      simpa [hundeclared] using hsame
  · obtain ⟨id, hid, hnew⟩ : ∃ id ∈ t.targets, d.bindings.contains id = false := by
      simpa using hold
    obtain ⟨v, p, rfl⟩ := (htop id hid).resolve_left (by simp [hnew])
    cases hdraft with
    | shown shape _ _ => exact shape.elim
    | @assign _ c _ _ _ _ shape _ code bound =>
      obtain ⟨y, hy, rfl, rfl⟩ := (gives_run_assign shape.isSilent id p m m₁ a).mp hrun
      -- The variable is in scope while its first value is computed, but not used there.
      have hagrees : Agrees (d.bindings.contains · = true) m.bindings
          fun x => if x = id then none else Scope.lookup [top] x := by
        intro x hx
        have hne : x ≠ id := fun heq => by simp [heq, hnew] at hx
        simpa [hne] using hmirrors.agrees x hx
      obtain ⟨n, rfl, hn⟩ := eval_value hagrees code shape bound
        (hplain.enters (.assigned id v p k m)) hy
      refine ⟨top.set id n.toInt, "", ?_, by simp, hmirrors.declare id n _⟩
      rw [hnew]
      exact .declare (hmirrors.undeclared id hnew) hn

/-- Each statement assigns only to names that were assigned before, the `known` ones
among them, or is itself the assignment: no name is first assigned inside a block. -/
def DeclaresAtTop (known : List String) : List Tree → Prop
  | [] => True
  | t :: ts => (∀ id ∈ t.targets, id ∈ known ∨ ∃ v p, t = .assign id v p) ∧
      DeclaresAtTop (t.targets ++ known) ts

/-- The statements of a script run in C as they do in the script. -/
theorem DraftsAll.exec_top {ts : List Tree} {cs : List Code} {d d' : Draft}
    (hdrafts : DraftsAll ts d cs d') {known : List String} {k : Nat} {m m' : Machine} {top : Scope}
    (htop : DeclaresAtTop known ts) (hknown : ∀ id ∈ known, d.bindings.contains id = true)
    (hfresh : ∀ n, d.bindings.contains (Counters.name n) = false ∧
      Counters.name n ∉ Tree.targetsAll ts)
    (hplain : Visit.IsPlain ⟨.block ts, k, m⟩) (hrun : Gives (Tree.runAll ts) m () m')
    (hmirrors : Mirrors d m.bindings top) :
    ∃ top' out, Exec (Code.stmts cs) [top] [top'] out ∧ m'.output.text = m.output.text ++ out := by
  induction ts generalizing cs d known k m top with
  | nil =>
    cases hdrafts
    obtain ⟨_, rfl⟩ := (gives_pure ..).mp hrun
    exact ⟨top, "", .skip _, by simp⟩
  | cons t ts ih =>
    cases hdrafts with
    | @cons _ _ c cs _ d₁ _ head tail =>
      obtain ⟨a, m₁, hhead, htail⟩ := (gives_runAll_cons t ts m m').mp hrun
      obtain ⟨top₁, out, hexec, hout, hmirrors₁⟩ := head.exec_top
        (fun id hid => (htop.1 id hid).imp_left (hknown id)) (fun n => (hfresh n).1)
        (hplain.enters (.head t ts k m)) hhead hmirrors
      have hknown₁ : ∀ id ∈ t.targets ++ known, d₁.bindings.contains id = true := by
        intro id hid
        rw [head.contains_iff]
        exact (List.mem_append.mp hid).symm.imp_left (hknown id)
      have hfresh₁ : ∀ n, d₁.bindings.contains (Counters.name n) = false ∧
          Counters.name n ∉ Tree.targetsAll ts := by
        intro n
        obtain ⟨hunbound, htargets⟩ := hfresh n
        simp only [Tree.gatherAll, List.mem_append, not_or] at htargets
        refine ⟨?_, htargets.2⟩
        rw [Bool.eq_false_iff, Ne, head.contains_iff, hunbound]
        simpa using htargets.1
      obtain ⟨top₂, out', hexec', hout'⟩ := ih tail htop.2 hknown₁ hfresh₁
        (hplain.enters (.tail ts k hhead)) htail hmirrors₁
      exact ⟨top₂, out ++ out', .seq hexec hexec', by rw [hout', hout, String.append_assoc]⟩

/-- What a script must keep to for its C text to print the same. -/
structure IsPortable (body : List Tree) : Prop where
  undivided : .div ∉ Tree.operatorsAll body
  declaresAtTop : DeclaresAtTop [] body
  constantBounds : ∀ b ∈ Tree.boundsAll body, b.names = []
  freeNames : ∀ id ∈ Tree.namesAll body ++ Tree.targetsAll body,
    isFree id = true ∧ ∀ n, id ≠ Counters.name n

theorem IsPortable.isVariable {source : String} {body : List Tree} (h : IsPortable body)
    (hparse : Script.parse source = .ok (.program body)) (id : String)
    (hid : id ∈ Tree.namesAll body ∨ id ∈ Tree.targetsAll body) : IsVariable id :=
  ⟨isWord_of_isName (Script.isName_of_parse hparse hid),
    (h.freeNames id (List.mem_append.mpr hid)).1⟩

/-- Counters are none of the names that a portable script assigns to. -/
theorem IsPortable.counter_not_mem {body : List Tree} (h : IsPortable body) (n : Nat) :
    Counters.name n ∉ Tree.targetsAll body :=
  fun hmem => (h.freeNames _ (List.mem_append_right _ hmem)).2 n rfl

theorem mirrors_empty : Mirrors {} .empty Scope.empty where
  agrees id hid := by simp [Bindings.contains_eq_isSome] at hid
  undeclared _ _ := rfl

/-- While its integers are small, a portable script that runs to its end and has a C text
prints what that text prints before the line with the time. -/
theorem prints_iff {source text : String} {body : List Tree} {step : Nat} {room : Option Nat}
    (hparse : Script.parse source = .ok (.program body)) (hportable : IsPortable body)
    (hrun : (Script.run source { room := room }).result = .ok ())
    (htext : Script.toC source step = .ok text)
    (hsmall : Visit.StaysWithin (2 ^ 31 - 1)
      ⟨.tree (.program body), 0, { output := { room := room } }⟩)
    (seconds out : String) :
    C.Prints seconds text out ↔
      out = (Script.run source { room := room }).output ++ C.elapsedLine seconds := by
  obtain ⟨m, hgives, houtput⟩ := Script.gives_of_run hparse hrun
  obtain ⟨cs, d, hdraft, rfl⟩ := Script.draftsAll_of_toC hparse htext
  have hstatements := hdraft.allStatements isVariable_counter (hportable.isVariable hparse)
  have hplain : Visit.IsPlain ⟨.block body, 0, { output := { room := room } }⟩ :=
    ⟨hportable.undivided, hportable.constantBounds, hsmall.enters (.program ..)⟩
  have hfresh n : Bindings.empty.contains (Counters.name n) = false ∧
      Counters.name n ∉ Tree.targetsAll body :=
    ⟨by simp [Bindings.contains_eq_isSome], hportable.counter_not_mem n⟩
  obtain ⟨top, printed, hexec, hprinted⟩ := hdraft.exec_top hportable.declaresAtTop
    (by simp) hfresh hplain hgives mirrors_empty
  have hsame : (Script.run source { room := room }).output = printed := by
    rw [houtput, hprinted]
    exact String.empty_append
  constructor
  · rintro ⟨program, ss, printed', hread, hexec', rfl⟩
    rw [parse_main hstatements step] at hread
    cases hread
    rw [hsame, (hexec.unique hexec').2]
  · rintro rfl
    exact ⟨_, _, printed, parse_main hstatements step, hexec, by rw [hsame]⟩

def oneTurn : List Tree :=
  [.arith .sub (.name "x" false ⟨1, 23⟩) (.literal 7 false ⟨1, 27⟩) true ⟨1, 25⟩,
    .assign "x" (.literal 1 false ⟨1, 38⟩) ⟨1, 30⟩]

/-- The script `let x = 4; repeat 2 { x - 7; let x = 1; } x;`. -/
def twoTurns : List Tree :=
  [.assign "x" (.literal 4 false ⟨1, 9⟩) ⟨1, 1⟩,
    .loop (.literal 2 false ⟨1, 19⟩) oneTurn ⟨1, 12⟩,
    .name "x" true ⟨1, 43⟩]

theorem isPortable_twoTurns : IsPortable twoTurns where
  undivided := by decide
  declaresAtTop := by simp [twoTurns, oneTurn, DeclaresAtTop]
  constantBounds := by simp [twoTurns, oneTurn]
  freeNames id hid := by
    obtain rfl : id = "x" := by
      simpa [twoTurns, oneTurn] using hid
    refine ⟨by decide, fun n heq => ?_⟩
    have hhead := congrArg (·.toList.head?) heq
    simp [Counters.name] at hhead

def OneOrFour (m : Machine) : Prop :=
  ∃ n : Int64, m.bindings.get? "x" = some (.integer n) ∧ 1 ≤ n.toInt ∧ n.toInt ≤ 4

theorem value?_difference {m : Machine} (h : OneOrFour m) {p q r : Position} {n : Int64}
    (hvalue : (Tree.arith .sub (.name "x" false p) (.literal 7 false q) true r).value? m.bindings =
      some (.integer n)) : -6 ≤ n.toInt ∧ n.toInt ≤ -3 := by
  obtain ⟨a, ha, hlow, hhigh⟩ := h
  simp only [Tree.value?, ha, ArithOp.apply, Value.integer?, ArithOp.onIntegers?,
    Option.bind_some] at hvalue
  cases hsub : Integer.sub? a 7 with
  | none => simp [hsub, Except.toOption] at hvalue
  | some i =>
    obtain rfl : i = n := by simpa [hsub, Except.toOption] using hvalue
    have hexact : i.toInt = a.toInt - 7 := Integer.ofInt?_eq_some_iff.mp hsub
    omega

theorem gives_set_x {n : Int64} {p q : Position} {m m' : Machine} {a : Option Value}
    (hrun : Gives (Tree.assign "x" (.literal n false p) q).run m a m') :
    m'.bindings.get? "x" = some (.integer n) := by
  obtain ⟨_, hvalue, _, rfl⟩ := (gives_run_assign (v := .literal n false p) rfl ..).mp hrun
  cases hvalue
  simp

theorem staysWithin_set_x {n : Int64} (h : -(2 ^ 31 - 1) ≤ n.toInt ∧ n.toInt ≤ 2 ^ 31 - 1)
    (p q : Position) (k : Nat) (m : Machine) :
    Visit.StaysWithin (2 ^ 31 - 1) ⟨.tree (.assign "x" (.literal n false p) q), k, m⟩ :=
  Visit.staysWithin_assign (v := .literal n false p) (Visit.staysWithin_literal h _ _ _ _) rfl _ _

theorem staysWithin_oneTurn {m : Machine} (h : OneOrFour m) (k : Nat) :
    Visit.StaysWithin (2 ^ 31 - 1) ⟨.block oneTurn, k, m⟩ := by
  obtain ⟨n, hn, hlow, hhigh⟩ := id h
  have hx : (Tree.name "x" false ⟨1, 23⟩).IsSilent := rfl
  refine Visit.staysWithin_cons (Visit.staysWithin_arith hx (fun i m' hrun => ?_) ?_ ?_)
    fun a m' hrun => ?_
  · obtain ⟨v, hv, heq, _⟩ := (Tree.IsShownSum.gives_run (by exact ⟨rfl, rfl, rfl⟩) m m' _).mp hrun
    cases heq
    have hdifference := value?_difference h hv
    omega
  · exact Visit.staysWithin_name (by omega) hn _ _ _
  · exact Visit.staysWithin_literal (by decide) _ _ _ _
  · exact Visit.staysWithin_cons (staysWithin_set_x (by decide) _ _ _ _)
      fun _ _ _ => Visit.staysWithin_nil _ _ _

theorem oneOrFour_of_turn {m m' : Machine} (hturn : Gives (Tree.runAll oneTurn) m () m') :
    OneOrFour m' := by
  obtain ⟨_, m₁, _, hrest⟩ := (gives_runAll_cons ..).mp hturn
  obtain ⟨_, m₂, hassign, hnil⟩ := (gives_runAll_cons ..).mp hrest
  obtain ⟨_, rfl⟩ := (gives_pure ..).mp hnil
  exact ⟨1, gives_set_x hassign, by decide, by decide⟩

/-- Every integer on the way through `twoTurns` is small. -/
theorem staysWithin_twoTurns : Visit.StaysWithin (2 ^ 31 - 1) ⟨.block twoTurns, 0, {}⟩ := by
  refine Visit.staysWithin_cons (staysWithin_set_x (by decide) _ _ _ _) fun a m hrun => ?_
  have hstart : OneOrFour m := ⟨4, gives_set_x hrun, by decide, by decide⟩
  have hturns i m' (h : Gives (Run.times i (Tree.runAll oneTurn)) m () m') : OneOrFour m' :=
    times_invariant OneOrFour (fun _ _ _ => oneOrFour_of_turn) hstart h
  have hbound : (Tree.literal 2 false ⟨1, 19⟩).IsSilent := rfl
  refine Visit.staysWithin_cons (Visit.staysWithin_loop hbound ?_ _ fun i m' hearlier => ?_)
    fun a m' hloop => ?_
  · exact Visit.staysWithin_literal (by decide) _ _ _ _
  · exact staysWithin_oneTurn (hturns i m' hearlier) _
  · obtain ⟨_, _, _, _, _, hall⟩ := (gives_run_loop hbound ..).mp hloop
    obtain ⟨n, hn, hlow, hhigh⟩ := hturns _ m' hall
    exact Visit.staysWithin_cons (Visit.staysWithin_name (by omega) hn _ _ _)
      fun _ _ _ => Visit.staysWithin_nil _ _ _

def twoTurnsCode : Code :=
  .main [.set true "x" (.number 4),
    .loop "_r0" 2 [.print (.arith .sub (.var "x") (.number 7)), .set false "x" (.number 1)],
    .print (.var "x")]

/-- What is printed is negative, then greater after an assignment inside the loop. -/
theorem twoTurns_prints :
    Script.parse "let x = 4; repeat 2 \x7b x - 7; let x = 1; \x7d x;" = .ok (.program twoTurns) ∧
    IsPortable twoTurns ∧
    Visit.StaysWithin (2 ^ 31 - 1) ⟨.tree (.program twoTurns), 0, {}⟩ ∧
    ∀ seconds out, C.Prints seconds (twoTurnsCode.text 4 0) out ↔
      out = "-3\n-6\n1\n" ++ C.elapsedLine seconds := by
  have hparse : Script.parse "let x = 4; repeat 2 \x7b x - 7; let x = 1; \x7d x;" =
      .ok (.program twoTurns) := by with_unfolding_all rfl
  have hend : (Tree.program twoTurns).run.run {} =
      (.ok none, ⟨Bindings.empty.define "x" (.integer 1), ⟨"-3\n-6\n1\n", none⟩⟩) := rfl
  have hrun : Script.run "let x = 4; repeat 2 \x7b x - 7; let x = 1; \x7d x;" {} =
      ⟨.ok (), "-3\n-6\n1\n"⟩ := Script.run_of_parse hparse hend
  have hdraft : (((Tree.program twoTurns).draft .statement).run {}).1 = .ok twoTurnsCode := rfl
  have htext := Script.toC_of_draft hparse hdraft 4
  have hsmall := Visit.staysWithin_program staysWithin_twoTurns
  refine ⟨hparse, isPortable_twoTurns, hsmall, fun seconds out => ?_⟩
  have hprints := prints_iff hparse isPortable_twoTurns (by rw [hrun]) htext hsmall seconds out
  rwa [hrun] at hprints

end CSource

end Scriptlet
