import Scriptlet.Proofs.Text.Ascii
import Scriptlet.Proofs.Tree.Induction

/-!
Runs with little room for output. A run looks at the room that is left only when it prints, so
up to the first line that does not fit it is the run without a limit. That line is cut
short and the run stops there: it has printed as much of the unlimited output as there was room
for, and has made exactly the assignments that the unlimited run makes before that line.
-/
namespace Scriptlet

/-- The machine with room for `limit` characters in all, those already printed included. -/
def Machine.upTo (limit : Nat) (m : Machine) : Machine :=
  { m with output := ⟨m.output.text, some (limit - m.output.text.length)⟩ }

namespace Visit

/-- On the way, under the bindings `b`, the value of an expression is printed on a line that
begins within the first `limit` characters of the output and ends after them. -/
def PrintsAcross (x : Visit) (limit : Nat) (b : Bindings) : Prop :=
  ∃ u k m v before, Reaches x ⟨.tree u, k, m⟩ ∧ u.isShown = true ∧
    Gives u.run m (some v) ⟨b, ⟨before ++ (v.text ++ "\n"), none⟩⟩ ∧
    before.length ≤ limit ∧ limit < (before ++ (v.text ++ "\n")).length

/-- A limit does to the run from `m`, which has none, no more than to truncate it. What the
run prints in all either fits, or it is cut at the limit while a line across it is printed. -/
structure Truncates {α : Type} (x : Visit) (limit : Nat) (run : Run α) (m : Machine) : Prop where
  prints : ∃ more, Text.IsAscii more ∧ (run.run m).2.output = ⟨m.output.text ++ more, none⟩
  fits : (run.run m).2.output.text.length ≤ limit →
    run.run (m.upTo limit) = ((run.run m).1, (run.run m).2.upTo limit)
  cut : m.output.text.length ≤ limit → limit < (run.run m).2.output.text.length →
    ∃ b, run.run (m.upTo limit) = (.error .outputFull,
      ⟨b, ⟨String.ofList ((run.run m).2.output.text.toList.take limit), some 0⟩⟩) ∧
      x.PrintsAcross limit b

section Rules

variable {α β : Type} {x y : Visit} {limit : Nat} {m : Machine}

/-- A run that does the same for every output, and nothing to it. -/
theorem truncates_still {run : Run α} {r : Except RunError α} {b : Bindings}
    (hm : m.output.room = none) (h : ∀ o, run.run ⟨m.bindings, o⟩ = (r, ⟨b, o⟩)) :
    x.Truncates limit run m := by
  have hrun : run.run m = (r, ⟨b, m.output⟩) := h m.output
  refine ⟨⟨"", by decide, ?_⟩, fun _ => ?_, fun hle hlt => ?_⟩
  · rw [hrun, String.append_empty, ← hm]
  · rw [hrun]
    exact h _
  · rw [hrun] at hlt
    exact absurd hle (Nat.not_le.mpr hlt)

theorem truncates_pure (a : α) (hm : m.output.room = none) : x.Truncates limit (pure a) m :=
  truncates_still hm fun _ => rfl

theorem truncates_ofExcept (r : Except RunError α) (hm : m.output.room = none) :
    x.Truncates limit (Attempt.ofExcept r) m := by
  cases r with
  | ok a => exact truncates_pure a hm
  | error e => exact truncates_still hm fun _ => rfl

theorem truncates_resolve (id : String) (p : Position) (hm : m.output.room = none) :
    x.Truncates limit (Run.resolve id p) m := by
  refine truncates_still (r := m.bindings.resolve id p) (b := m.bindings) hm fun o => ?_
  change (Attempt.ofExcept (m.bindings.resolve id p)).run _ = _
  cases m.bindings.resolve id p <;> rfl

theorem Truncates.bind {run : Run α} {f : α → Run β} (h : x.Truncates limit run m)
    (hf : ∀ a m₁, Gives run m a m₁ → m₁.output.room = none → x.Truncates limit (f a) m₁) :
    x.Truncates limit (run >>= f) m := by
  obtain ⟨⟨more, hascii, hprints⟩, hfits, hcut⟩ := h
  cases hrun : run.run m with
  | mk r m₁ =>
    rw [hrun] at hprints hfits hcut
    cases r with
    | error e =>
      have hbind : (run >>= f).run m = (.error e, m₁) := by rw [run_bind, hrun]
      refine ⟨⟨more, hascii, by rw [hbind, hprints]⟩, fun hle => ?_, fun hle hlt => ?_⟩
      · rw [hbind] at hle ⊢
        rw [run_bind, hfits hle]
      · rw [hbind] at hlt ⊢
        obtain ⟨b, hstops, hacross⟩ := hcut hle hlt
        exact ⟨b, by rw [run_bind, hstops], hacross⟩
    | ok a =>
      have hbind : (run >>= f).run m = (f a).run m₁ := by rw [run_bind, hrun]
      have hroom : m₁.output.room = none := by rw [show m₁.output = _ from hprints]
      obtain ⟨⟨more', hascii', hprints'⟩, hfits', hcut'⟩ := hf a m₁ hrun hroom
      rw [← hbind] at hprints' hfits' hcut'
      have htext : ((run >>= f).run m).2.output.text = m₁.output.text ++ more' := by rw [hprints']
      have hlength := congrArg String.length htext
      rw [String.length_append] at hlength
      refine ⟨⟨more ++ more', hascii.append hascii', ?_⟩, fun hle => ?_, fun hle hlt => ?_⟩
      · rw [hprints', hprints, String.append_assoc]
      · rw [run_bind, hfits (by dsimp only; omega)]
        exact hfits' hle
      · by_cases hfirst : m₁.output.text.length ≤ limit
        · obtain ⟨b, hstops, hacross⟩ := hcut' hfirst hlt
          refine ⟨b, ?_, hacross⟩
          rw [run_bind, hfits hfirst]
          exact hstops
        · -- The first part is cut already; nothing is left of what the second part prints.
          obtain ⟨b, hstops, hacross⟩ := hcut hle (Nat.not_le.mp hfirst)
          refine ⟨b, ?_, hacross⟩
          have hshort : limit ≤ m₁.output.text.toList.length := by
            rw [String.length_toList]
            omega
          rw [run_bind, hstops, htext, String.toList_append, List.take_append_of_le_length hshort]

theorem Truncates.enters {run : Run α} (hxy : Enters x y) (h : y.Truncates limit run m) :
    x.Truncates limit run m := by
  refine ⟨h.prints, h.fits, fun hle hlt => ?_⟩
  obtain ⟨b, hstops, u, k, m₁, v, before, hreaches, hacross⟩ := h.cut hle hlt
  exact ⟨b, hstops, u, k, m₁, v, before, .head hxy hreaches, hacross⟩

/-- Printing is cut short only where the line goes across the limit. -/
theorem truncates_print {v : Value} (hm : m.output.room = none)
    (hacross : m.output.text.length ≤ limit →
      limit < (m.output.text ++ (v.text ++ "\n")).length → x.PrintsAcross limit m.bindings) :
    x.Truncates limit (Run.print v) m := by
  have hwrite : m.output.write (v.text ++ "\n") =
      (true, ⟨m.output.text ++ (v.text ++ "\n"), none⟩) := by
    rw [Output.write, hm]
  have hrun : (Run.print v).run m =
      (.ok (), ⟨m.bindings, ⟨m.output.text ++ (v.text ++ "\n"), none⟩⟩) := by
    rw [Run.run_print, hwrite]
    rfl
  have hlength : (m.output.text ++ (v.text ++ "\n")).length =
      m.output.text.length + (v.text ++ "\n").length := String.length_append _ _
  refine ⟨⟨v.text ++ "\n", v.isAscii_line, by rw [hrun]⟩, fun hle => ?_, fun hle hlt => ?_⟩
  · rw [hrun] at hle ⊢
    dsimp only at hle
    have hroom : (v.text ++ "\n").length ≤ limit - m.output.text.length := by omega
    have hleft : limit - m.output.text.length - (v.text ++ "\n").length =
        limit - (m.output.text ++ (v.text ++ "\n")).length := by omega
    rw [Run.run_print]
    simp only [Machine.upTo, Output.write, if_pos hroom, hleft, if_true]
  · rw [hrun] at hlt ⊢
    dsimp only at hlt
    have hroom : ¬ (v.text ++ "\n").length ≤ limit - m.output.text.length := by omega
    have htake : (m.output.text ++ (v.text ++ "\n")).toList.take limit =
        m.output.text.toList ++
          (v.text ++ "\n").toList.take (limit - m.output.text.length) := by
      rw [String.toList_append, List.take_append, String.length_toList,
        List.take_of_length_le (by rw [String.length_toList]; exact hle)]
    refine ⟨m.bindings, ?_, hacross hle hlt⟩
    rw [Run.run_print]
    simp only [Machine.upTo, Output.write, if_neg hroom, htake, String.ofList_append,
      String.ofList_toList]
    rfl

end Rules

/-- The value of a tree, printed where the tree is shown. -/
theorem truncates_give {t : Tree} {k limit : Nat} {m m₁ : Machine} {v : Value}
    (hvalue : t.ComesTo m v m₁) (hm₁ : m₁.output.room = none) :
    Truncates ⟨.tree t, k, m⟩ limit (Run.give v t.isShown) m₁ := by
  cases hshown : t.isShown with
  | false => exact truncates_pure (some v) hm₁
  | true =>
    refine (truncates_print hm₁ fun hle hlt => ?_).bind fun _ m₂ _ hm₂ =>
      truncates_pure (some v) hm₂
    refine ⟨t, k, m, v, m₁.output.text, .refl, hshown, hvalue.gives_run ?_, hle, hlt⟩
    rw [hshown, Run.gives_give, if_pos rfl, Run.gives_print, Output.write, hm₁]
    exact ⟨rfl, rfl, rfl⟩

/-- With room for only so many characters, a run is cut short where it first goes across. -/
theorem truncates_runRules (limit : Nat) : RunRules id (fun _ => True)
    (fun x run _ m => m.output.room = none → x.Truncates limit run m) where
  part _ _ := trivial
  of_pure a hm := truncates_pure a hm
  bind hrun hnext hm := (hrun hm).bind hnext
  enters hxy h hm := (h hm).enters hxy
  resolve _ hm := truncates_resolve _ _ hm
  give _ hvalue hm := truncates_give hvalue hm
  fault _ _ hm := truncates_still hm fun _ => rfl
  needed {_ _ a _ _} _ _ _ _ hm := by
    cases a <;> exact truncates_still hm fun _ => rfl
  define {id _ _ _ a _ m₁} _ _ hm :=
    truncates_still (b := m₁.bindings.define id a) hm fun _ => rfl
  count _ hm := truncates_ofExcept _ hm

end Visit

/-- Any tree, run from any bindings without a limit and with room for `k` bytes. If all that it
prints fits, both runs end alike. Else the second one stops because its output is full: it
has printed the first `k` bytes, and its bindings are those that the first run has when it
prints the line across them. -/
theorem Tree.run_limited (t : Tree) (b : Bindings) (k : Nat)
    {r r' : Except RunError (Option Value)} {m m' : Machine} (h : t.run.run ⟨b, {}⟩ = (r, m))
    (h' : t.run.run ⟨b, .limited k⟩ = (r', m')) :
    ((Text.bytes m.output.text).length ≤ k →
      r' = r ∧ m'.bindings = m.bindings ∧ Text.bytes m'.output.text = Text.bytes m.output.text) ∧
    (k < (Text.bytes m.output.text).length →
      r' = .error .outputFull ∧
      Text.bytes m'.output.text = (Text.bytes m.output.text).take k ∧
      Visit.PrintsAcross ⟨.tree t, 0, ⟨b, {}⟩⟩ k m'.bindings) := by
  obtain ⟨⟨more, hascii, hprints⟩, hfits, hcut⟩ :=
    show Visit.Truncates ⟨.tree t, 0, ⟨b, {}⟩⟩ k t.run ⟨b, {}⟩ from
    (Visit.truncates_runRules k).tree t trivial 0 _ rfl
  have hstart : Machine.upTo k ⟨b, {}⟩ = ⟨b, .limited k⟩ := rfl
  rw [h] at hprints hfits hcut
  rw [hstart, h'] at hfits hcut
  have htext : m.output.text = more := by rw [hprints, String.empty_append]
  rw [← htext] at hascii
  rw [hascii.length_bytes]
  refine ⟨fun hle => ?_, fun hlt => ?_⟩
  · obtain ⟨hr, hm⟩ := Prod.mk.inj (hfits hle)
    rw [hr, hm]
    exact ⟨rfl, rfl, rfl⟩
  · obtain ⟨b', hends, hacross⟩ := hcut (Nat.zero_le k) hlt
    obtain ⟨hr, hm⟩ := Prod.mk.inj hends
    rw [hr, hm]
    exact ⟨rfl, hascii.bytes_take k, hacross⟩

/-- The script `1; 22; let x = 3; 4;`. -/
def twoThenAssign : Tree :=
  .program [.literal 1 true ⟨1, 1⟩, .literal 22 true ⟨1, 4⟩,
    .assign "x" (.literal 3 false ⟨1, 16⟩) ⟨1, 8⟩, .literal 4 true ⟨1, 19⟩]

/-- With room for three bytes the second line is cut in the middle, and `x` is not assigned. -/
theorem twoThenAssign_limited :
    twoThenAssign.run.run ⟨.empty, {}⟩ =
      (.ok none, ⟨.define .empty "x" (.integer 3), ⟨"1\n22\n4\n", none⟩⟩) ∧
    twoThenAssign.run.run ⟨.empty, .limited 3⟩ =
      (.error .outputFull, ⟨.empty, ⟨"1\n2", some 0⟩⟩) ∧
    Text.bytes "1\n2" = (Text.bytes "1\n22\n4\n").take 3 ∧
    Visit.PrintsAcross ⟨.tree twoThenAssign, 0, ⟨.empty, {}⟩⟩ 3 .empty := by
  have hfree : twoThenAssign.run.run ⟨.empty, {}⟩ =
      (.ok none, ⟨.define .empty "x" (.integer 3), ⟨"1\n22\n4\n", none⟩⟩) := rfl
  have hcut : twoThenAssign.run.run ⟨.empty, .limited 3⟩ =
      (.error .outputFull, ⟨.empty, ⟨"1\n2", some 0⟩⟩) := rfl
  obtain ⟨_, hends⟩ := Tree.run_limited twoThenAssign .empty 3 hfree hcut
  obtain ⟨_, hbytes, hacross⟩ := hends (by decide)
  exact ⟨hfree, hcut, hbytes, hacross⟩

end Scriptlet
