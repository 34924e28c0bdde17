import Mathlib.Algebra.Ring.Int.Defs
import Mathlib.Data.List.Infix
import Scriptlet.Proofs.CSource.Emits

/-!
Scopes of C texts and blocks of scripts. A script has one set of bindings, so a name that is
assigned in a block can be used after the block. The C text declares a name where it is
first assigned, and in C the declaration ends with its block. So the text is well scoped
exactly when the script uses and assigns each name only while the block of its first
assignment is open.
-/
namespace Scriptlet

/-- No start of the list closes more blocks than it opens, so a block that is open before it
stays open. -/
def StaysOpen (depths : List Int) : Prop :=
  ∀ part, part <+: depths → 0 ≤ part.sum

instance (depths : List Int) : Decidable (StaysOpen depths) :=
  decidable_of_iff (∀ part ∈ depths.inits, 0 ≤ part.sum) (by simp [StaysOpen])

namespace C

/-- Each variable stands after a declaration of it, in the same block or one inside it. -/
def WellScoped (events : List Event) : Prop :=
  ∀ before e after id, events = before ++ e :: after → e.needs? = some id →
    ∃ outer inner, before = outer ++ .sets true id :: inner ∧ StaysOpen (inner.map Event.depth)

end C

/-- Each name is used and assigned only where the block of its first assignment is open. The
bounds of loops may use it anywhere, since a C text has only their numbers. -/
def KeepsToBlocks (es : List Entry) : Prop :=
  ∀ before e after id, es = before ++ e :: after → e.name? = some id →
    ∀ outer v p inner, before = outer ++ .assigns id v p :: inner →
      .assigns id ∉ mentions outer → StaysOpen (inner.map Entry.depth)

namespace CSource

open C C.Token

section Scopes

variable {es : List Entry} {xs : List Event} {d : Draft}

/-- Names that keep to their blocks are in scope wherever they stand in C. -/
theorem Emits.wellScoped (h : Emits es {} xs d) (hblocks : KeepsToBlocks es) : WellScoped xs := by
  intro before x after id hsplit hx
  obtain ⟨fs, e, gs, d₁, hes, hfs, hname, hassigned⟩ := h.split_needs hsplit hx
  obtain ⟨outer, v, p, inner, rfl, hfirst⟩ := exists_first_assignment hassigned
  obtain ⟨xo, xi, rfl, _, _, hdepth⟩ := hfs.declares_first rfl hfirst
  refine ⟨xo, xi, rfl, ?_⟩
  rw [hdepth]
  exact hblocks _ e gs id hes hname outer v p inner rfl hfirst

/-- Names that are in scope in C keep to their blocks. -/
theorem Emits.keepsToBlocks (h : Emits es {} xs d) (hscoped : WellScoped xs) :
    KeepsToBlocks es := by
  rintro before e after id rfl hname outer v p inner rfl hfirst
  obtain ⟨ys, _, d₁, rfl, hbefore, hrest⟩ := h.split
  cases hrest with
  | @cons _ _ x zs _ _ _ head _ =>
    have hbound : d₁.bindings.contains id = true :=
      (hbefore.contains_iff id).mpr (.inr (by simp [Entry.mentions]))
    obtain ⟨yo, yi, hys, hopen⟩ := hscoped ys x zs id rfl (head.needs_of_bound hname hbound)
    -- The declaration that the scope gives is the one that the first assignment makes.
    obtain ⟨xo, xi, rfl, hxo, hxi, hdepth⟩ := hbefore.declares_first rfl hfirst
    obtain ⟨_, _, rfl⟩ := (List.append_cons_inj_of_notMem (hxo true) hxi).mp hys
    rwa [← hdepth]

end Scopes

/-- Where the variables of a C text stand. Each use and each assignment without a type comes
after the declaration of its variable. All of them are in the scope of that declaration
exactly when the script keeps each name to the block of its first assignment. -/
theorem wellScoped_iff_keepsToBlocks {source text : String} {body : List Tree} {step : Nat}
    (hparse : Script.parse source = .ok (.program body))
    (htext : Script.toC source step = .ok text) :
    ∃ events, C.outline text = some events ∧
      (∀ before e after id, events = before ++ e :: after → e.needs? = some id →
        Event.sets true id ∈ before) ∧
      (WellScoped events ↔ KeepsToBlocks (Tree.outlineAll body)) := by
  obtain ⟨events, d, houtline, hemits⟩ := emits_of_toC hparse htext
  refine ⟨events, houtline, fun before e after id hsplit he => ?_, ?_⟩
  · exact hemits.declared_before hsplit he
  · exact ⟨hemits.keepsToBlocks, hemits.wellScoped⟩

/-- The script `let x = 1; if x { x; } x;`. -/
def usedAround : List Tree :=
  [.assign "x" (.literal 1 false ⟨1, 9⟩) ⟨1, 1⟩,
    .branch ⟨.name "x" false ⟨1, 15⟩, [.name "x" true ⟨1, 19⟩], [], [], ⟨1, 12⟩⟩,
    .name "x" true ⟨1, 24⟩]

def usedAroundCode : Code :=
  .main [.set true "x" (.number 1), .branch ⟨.var "x", [.print (.var "x")], [], []⟩,
    .print (.var "x")]

/-- A name that is first assigned outside of all blocks can be used in and after them. -/
theorem usedAround_wellScoped :
    Script.parse "let x = 1; if x \x7b x; \x7d x;" = .ok (.program usedAround) ∧
    Script.toC "let x = 1; if x \x7b x; \x7d x;" 4 = .ok (usedAroundCode.text 4 0) ∧
    ∃ events, C.outline (usedAroundCode.text 4 0) = some events ∧ WellScoped events := by
  have hparse : Script.parse "let x = 1; if x \x7b x; \x7d x;" = .ok (.program usedAround) := by
    with_unfolding_all rfl
  have hdraft : (((Tree.program usedAround).draft .statement).run {}).1 = .ok usedAroundCode := rfl
  have htext := Script.toC_of_draft hparse hdraft 4
  obtain ⟨events, houtline, _, hiff⟩ := wellScoped_iff_keepsToBlocks hparse htext
  refine ⟨hparse, htext, events, houtline, hiff.mpr ?_⟩
  rintro before e after id hes hname outer v p inner rfl hfirst
  have houtlineAll : Tree.outlineAll usedAround =
      .assigns "x" (.literal 1 false ⟨1, 9⟩) ⟨1, 1⟩ :: [.uses "x" ⟨1, 15⟩, .opens,
        .uses "x" ⟨1, 19⟩, .closes, .uses "x" ⟨1, 24⟩] := rfl
  rw [houtlineAll] at hes
  cases outer with
  | nil =>
    obtain ⟨_, hrest⟩ := List.cons.inj hes
    have hopen : StaysOpen [0, 1, 0, -1, 0] := by decide
    have hinner : inner.map Entry.depth <+: [0, 1, 0, -1, 0] :=
      List.IsPrefix.map Entry.depth ⟨e :: after, hrest.symm⟩
    exact fun part hpart => hopen part (hpart.trans hinner)
  | cons first outer =>
    obtain ⟨_, hrest⟩ := List.cons.inj hes
    have hmem : Entry.assigns id v p ∈ [Entry.uses "x" ⟨1, 15⟩, .opens, .uses "x" ⟨1, 19⟩,
        .closes, .uses "x" ⟨1, 24⟩] := by
      rw [hrest]
      simp
    simp at hmem

/-- The script `if 1 { let x = 1; } x;`. -/
def usedAfter : List Tree :=
  [.branch ⟨.literal 1 false ⟨1, 4⟩, [.assign "x" (.literal 1 false ⟨1, 16⟩) ⟨1, 8⟩], [], [],
      ⟨1, 1⟩⟩,
    .name "x" true ⟨1, 21⟩]

def usedAfterCode : List Code :=
  [.branch ⟨.number 1, [.set true "x" (.number 1)], [], []⟩, .print (.var "x")]

/-- A name that is first assigned in a block can be used after it, where its declaration in
the C text has ended. -/
theorem usedAfter_not_wellScoped :
    Script.run "if 1 \x7b let x = 1; \x7d x;" {} = ⟨.ok (), "1\n"⟩ ∧
    Script.toC "if 1 \x7b let x = 1; \x7d x;" 4 = .ok ((Code.main usedAfterCode).text 4 0) ∧
    C.outline ((Code.main usedAfterCode).text 4 0) =
      some [.opens, .sets true "x", .closes, .uses "x"] ∧
    ¬ WellScoped [.opens, .sets true "x", .closes, .uses "x"] := by
  have hparse : Script.parse "if 1 \x7b let x = 1; \x7d x;" = .ok (.program usedAfter) := by
    with_unfolding_all rfl
  have hend : (Tree.program usedAfter).run.run {} =
      (.ok none, ⟨Bindings.empty.define "x" (.integer 1), ⟨"1\n", none⟩⟩) := rfl
  have hdraft : (((Tree.program usedAfter).draft .statement).run {}).1 =
      .ok (.main usedAfterCode) := rfl
  have hx : IsWord "x" := isWord_of_chars _ _ rfl rfl rfl
  have hwords : Code.AllStatements IsWord usedAfterCode :=
    ⟨⟨trivial, ⟨⟨hx, trivial⟩, trivial⟩, trivial, trivial⟩, hx, trivial⟩
  refine ⟨Script.run_of_parse hparse hend, Script.toC_of_draft hparse hdraft 4,
    outline_main hwords 4, fun hscoped => ?_⟩
  obtain ⟨outer, inner, hsplit, hopen⟩ :=
    hscoped [.opens, .sets true "x", .closes] (.uses "x") [] "x" rfl rfl
  change [Event.opens] ++ .sets true "x" :: [.closes] = outer ++ .sets true "x" :: inner at hsplit
  obtain ⟨_, _, rfl⟩ := (List.append_cons_inj_of_notMem (by simp) (by simp)).mp hsplit
  exact absurd hopen (by decide)

end CSource

end Scriptlet
