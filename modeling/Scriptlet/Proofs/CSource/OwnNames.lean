import Mathlib.Data.List.Nodup
import Mathlib.Data.List.Perm.Subperm
import Scriptlet.Proofs.CSource.Emits

/-!
The names that a C text has of its own: those that measure the time, and the counters of its
loops. No two of them are the same, and a counter is no name that stands before its loop. But
a counter is chosen when its loop is met, so a name that the script assigns for the first
time after that can be the same; and nothing keeps a script from the names that measure the
time.
-/
namespace Scriptlet

def C.timerNames : List String :=
  ["start_time", "elapsed_time"]

/-- The names that a program declares beside the variables of its script. -/
def C.ownNames (events : List C.Event) : List String :=
  C.timerNames ++ events.filterMap C.Event.counter?

namespace CSource

open C C.Token

namespace Counters

theorem name_injective : Function.Injective name := by
  intro m n h
  have hdigits : m.repr.toList = n.repr.toList := by
    have hchars := congrArg String.toList h
    simpa [name] using hchars
  have hvalue := decimal?_repr m
  rw [hdigits, decimal?_repr n] at hvalue
  exact (Option.some.inj hvalue).symm

/-- Of more numbers than there are bindings, one has a name that is not bound. -/
theorem exists_unbound (b : Bindings) (start : Nat) :
    ∃ n ∈ List.range' start (b.size + 1), b.contains (name n) = false := by
  by_contra hall
  have hsub : (List.range' start (b.size + 1)).map name ⊆ b.table.keys := by
    intro id hid
    obtain ⟨n, hn, rfl⟩ := List.mem_map.mp hid
    rw [Std.TreeMap.mem_keys, Std.TreeMap.mem_iff_contains]
    by_contra hunbound
    exact hall ⟨n, hn, eq_false_of_ne_true hunbound⟩
  have hnodup := (List.nodup_range' (s := start) (n := b.size + 1)).map name_injective
  have hlength := (List.subperm_of_subset hnodup hsub).length_le
  rw [List.length_map, List.length_range', Std.TreeMap.length_keys] at hlength
  exact absurd hlength (by simp [Bindings.size])

/-- The number that is taken has a name that is not bound, and no smaller number is taken
after it. -/
theorem free_spec (c : Counters) (b : Bindings) :
    c.next ≤ c.free b ∧ b.contains (name (c.free b)) = false := by
  unfold free
  cases hfind : (List.range' c.next b.size).find? fun n => !b.contains (name n) with
  | some n =>
    have hmem := List.mem_of_find?_eq_some hfind
    have hunbound := List.find?_some hfind
    exact ⟨(List.mem_range'_1.mp hmem).1, by simpa using hunbound⟩
  | none =>
    obtain ⟨n, hn, hunbound⟩ := exists_unbound b c.next
    rw [List.range'_1_concat, List.mem_append, List.mem_singleton] at hn
    rcases hn with hn | rfl
    · have hbound := List.find?_eq_none.mp hfind n hn
      simp [hunbound] at hbound
    · exact ⟨Nat.le_add_right _ _, hunbound⟩

end Counters

section Names

variable {es : List Entry} {xs : List Event} {d d' : Draft}

/-- The counters of loops are numbered upwards. -/
theorem Emits.exists_counters (h : Emits es d xs d') :
    ∃ ks : List Nat, xs.filterMap Event.counter? = ks.map Counters.name ∧ ks.Pairwise (· < ·) ∧
      ∀ k ∈ ks, d.counters.next ≤ k := by
  induction h with
  | nil d => exact ⟨[], rfl, .nil, by simp⟩
  | @cons e es x xs d d₁ d' head _ ih =>
    obtain ⟨ks, hks, hordered, hnext⟩ := ih
    cases head with
    | repeats value count bound =>
      have hfree := (d.counters.free_spec d.bindings).1
      refine ⟨d.counters.free d.bindings :: ks, congrArg (_ :: ·) hks, ?_, fun k hk => ?_⟩
      · exact List.pairwise_cons.mpr ⟨hnext, hordered⟩
      · rcases List.mem_cons.mp hk with rfl | hk
        · exact hfree
        · exact Nat.le_trans hfree (Nat.le_trans (Nat.le_succ _) (hnext k hk))
    | _ => exact ⟨ks, hks, hordered, hnext⟩

/-- No two of a program's own names are the same. -/
theorem Emits.nodup_ownNames (h : Emits es d xs d') : (ownNames xs).Nodup := by
  obtain ⟨ks, hks, hordered, _⟩ := h.exists_counters
  have hcounters : (ks.map Counters.name).Nodup :=
    (hordered.imp Nat.ne_of_lt).map _ fun _ _ hne heq => hne (Counters.name_injective heq)
  rw [ownNames, hks]
  refine List.nodup_append.mpr ⟨by decide, hcounters, fun timer htimer counter hcounter => ?_⟩
  rintro rfl
  obtain ⟨k, _, rfl⟩ := List.mem_map.mp hcounter
  have hfree := (isVariable_counter k).2
  have hframe : ∀ w ∈ timerNames, isFree w = false := by decide
  simp [hframe _ htimer] at hfree

/-- When a counter is chosen, its name has not been mentioned. -/
theorem Emits.counter_not_mem (h : Emits es {} xs d') {before after : List Event}
    {counter : String} {n : Nat} (hsplit : xs = before ++ .loops counter n :: after) :
    (∀ declares, Event.sets declares counter ∉ before) ∧ Event.uses counter ∉ before := by
  subst hsplit
  obtain ⟨fs, _, d₁, rfl, hfs, hrest⟩ := h.split_events
  cases hrest with
  | cons head _ =>
    cases head with
    | repeats value count bound =>
      have hunbound := (d₁.counters.free_spec d₁.bindings).2
      have hassigned : .assigns (Counters.name (d₁.counters.free d₁.bindings)) ∉ mentions fs := by
        intro hmem
        simp [(hfs.contains_iff _).mpr (.inr hmem)] at hunbound
      refine ⟨fun declares hmem => hassigned (hfs.assigns_of_sets hmem), fun hmem => ?_⟩
      obtain ⟨ys, zs, rfl⟩ := List.append_of_mem hmem
      have hdeclared := hfs.declared_before rfl rfl
      exact hassigned (hfs.assigns_of_sets (List.mem_append_left _ hdeclared))

/-- The variables of a script are those that its text declares. -/
theorem Emits.mem_variables_iff {body : List Tree} (hbody : Tree.AllStatements body)
    (h : Emits (Tree.outlineAll body) {} xs d') (id : String) :
    id ∈ Tree.namesAll body ∨ id ∈ Tree.targetsAll body ↔ Event.sets true id ∈ xs := by
  constructor
  · intro hid
    have hassigned : .assigns id ∈ mentions (Tree.outlineAll body) := by
      rcases hid with hused | htarget
      · obtain ⟨p, hp⟩ := hbody.mem_namesAll_iff.mp hused
        obtain ⟨before, after, hsplit⟩ := List.append_of_mem hp
        rcases h.assigned_before_use hsplit with hbound | hmem
        · simp [Bindings.contains_eq_isSome] at hbound
        · rw [hsplit]
          exact List.mem_append_left _ hmem
      · exact hbody.mem_targetsAll_iff.mp htarget
    obtain ⟨outer, v, p, inner, hsplit, hfirst⟩ := exists_first_assignment hassigned
    rw [hsplit] at h
    obtain ⟨before, after, rfl, _⟩ := h.declares_first rfl hfirst
    simp
  · intro hmem
    exact .inr (hbody.mem_targetsAll_iff.mpr (h.assigns_of_sets hmem))

end Names

/-- The own names of a C text and the variables of its script. The own names are all
different, and nothing before a loop uses or sets its counter. An own name is also a variable
of the script exactly if the script assigns to a name that measures the time, or assigns to
a counter for the first time after the head of its loop. -/
theorem ownNames_collide_iff {source text : String} {body : List Tree} {step : Nat}
    (hparse : Script.parse source = .ok (.program body))
    (htext : Script.toC source step = .ok text) :
    ∃ events, C.outline text = some events ∧ (ownNames events).Nodup ∧
      (∀ before counter n after, events = before ++ .loops counter n :: after →
        (∀ declares, Event.sets declares counter ∉ before) ∧ Event.uses counter ∉ before) ∧
      ∀ name ∈ ownNames events, name ∈ Tree.namesAll body ∨ name ∈ Tree.targetsAll body ↔
        (name ∈ timerNames ∧ name ∈ Tree.targetsAll body) ∨
        ∃ before n after, events = before ++ .loops name n :: after ∧
          Event.sets true name ∈ after := by
  obtain ⟨events, d, houtline, hemits⟩ := emits_of_toC hparse htext
  have hstatements := Script.allStatements_of_parse hparse
  refine ⟨events, houtline, hemits.nodup_ownNames, fun before counter n after hsplit =>
    hemits.counter_not_mem hsplit, fun name hname => ?_⟩
  have hvariable := hemits.mem_variables_iff hstatements name
  constructor
  · intro hname'
    rcases List.mem_append.mp hname with htimer | hcounter
    · refine .inl ⟨htimer, ?_⟩
      exact hstatements.mem_targetsAll_iff.mpr (hemits.assigns_of_sets (hvariable.mp hname'))
    · obtain ⟨x, hx, hloop⟩ := List.mem_filterMap.mp hcounter
      obtain ⟨before, after, rfl⟩ := List.append_of_mem hx
      cases x with
      | loops counter n =>
        cases hloop
        refine .inr ⟨before, n, after, rfl, ?_⟩
        have hbefore := (hemits.counter_not_mem rfl).1 true
        simpa [hbefore] using hvariable.mp hname'
      | _ => cases hloop
  · rintro (⟨_, htarget⟩ | ⟨before, n, after, rfl, hdeclared⟩)
    · exact .inr htarget
    · exact hvariable.mpr (by simp [hdeclared])

/-- The script `let _r0 = 1; repeat _r0 { _r0; }`. -/
def takenCounter : List Tree :=
  [.assign "_r0" (.literal 1 false ⟨1, 11⟩) ⟨1, 1⟩,
    .loop (.name "_r0" false ⟨1, 21⟩) [.name "_r0" true ⟨1, 27⟩] ⟨1, 14⟩]

def takenCounterCode : List Code :=
  [.set true "_r0" (.number 1), .loop "_r1" 1 [.print (.var "_r0")]]

/-- A counter passes over a name that was assigned before, so here no own name is a
variable. -/
theorem takenCounter_apart :
    Script.parse "let _r0 = 1; repeat _r0 \x7b _r0; \x7d" = .ok (.program takenCounter) ∧
    Script.toC "let _r0 = 1; repeat _r0 \x7b _r0; \x7d" 4 =
      .ok ((Code.main takenCounterCode).text 4 0) ∧
    C.outline ((Code.main takenCounterCode).text 4 0) =
      some [.sets true "_r0", .loops "_r1" 1, .opens, .uses "_r0", .closes] ∧
    ∀ name ∈ ["start_time", "elapsed_time", "_r1"],
      ¬ (name ∈ Tree.namesAll takenCounter ∨ name ∈ Tree.targetsAll takenCounter) := by
  have hparse : Script.parse "let _r0 = 1; repeat _r0 \x7b _r0; \x7d" =
      .ok (.program takenCounter) := by with_unfolding_all rfl
  have hdraft : (((Tree.program takenCounter).draft .statement).run {}).1 =
      .ok (.main takenCounterCode) := rfl
  have htext := Script.toC_of_draft hparse hdraft 4
  have hvariable : IsWord "_r0" := isWord_of_chars _ _ rfl rfl rfl
  have hcounter : IsWord "_r1" := isWord_of_chars _ _ rfl rfl rfl
  have hwords : Code.AllStatements IsWord takenCounterCode :=
    ⟨⟨hvariable, trivial⟩, ⟨hcounter, hvariable, trivial⟩, trivial⟩
  have hevents := outline_main hwords 4
  obtain ⟨events, houtline, _, _, hcollide⟩ := ownNames_collide_iff hparse htext
  obtain rfl : Code.eventsAll takenCounterCode = events :=
    Option.some.inj (hevents.symm.trans houtline)
  refine ⟨hparse, htext, hevents, fun name hname hmem => ?_⟩
  rcases (hcollide name hname).mp hmem with ⟨_, htarget⟩ | ⟨before, n, after, hsplit, hdeclared⟩
  · obtain rfl : name = "_r0" := by simpa [takenCounter] using htarget
    simp at hname
  · have hlater : Event.sets true name ∈ Code.eventsAll takenCounterCode := by
      rw [hsplit]
      simp [hdeclared]
    obtain rfl : name = "_r0" := by
      simpa [takenCounterCode, Code.eventsAll, Code.events, Code.used, Event.block] using hlater
    simp at hname

/-- The script `repeat 2 { let _r0 = 7; _r0; }`. -/
def assignedCounter : List Tree :=
  [.loop (.literal 2 false ⟨1, 8⟩)
    [.assign "_r0" (.literal 7 false ⟨1, 22⟩) ⟨1, 12⟩, .name "_r0" true ⟨1, 25⟩] ⟨1, 1⟩]

def assignedCounterCode : List Code :=
  [.loop "_r0" 2 [.set true "_r0" (.number 7), .print (.var "_r0")]]

/-- A name that is assigned in a loop for the first time can be the counter of that loop. -/
theorem assignedCounter_collides :
    Script.run "repeat 2 \x7b let _r0 = 7; _r0; \x7d" {} = ⟨.ok (), "7\n7\n"⟩ ∧
    Script.parse "repeat 2 \x7b let _r0 = 7; _r0; \x7d" = .ok (.program assignedCounter) ∧
    Script.toC "repeat 2 \x7b let _r0 = 7; _r0; \x7d" 4 =
      .ok ((Code.main assignedCounterCode).text 4 0) ∧
    C.outline ((Code.main assignedCounterCode).text 4 0) =
      some [.loops "_r0" 2, .opens, .sets true "_r0", .uses "_r0", .closes] ∧
    "_r0" ∈ ownNames [.loops "_r0" 2, .opens, .sets true "_r0", .uses "_r0", .closes] ∧
    "_r0" ∈ Tree.targetsAll assignedCounter := by
  have hparse : Script.parse "repeat 2 \x7b let _r0 = 7; _r0; \x7d" =
      .ok (.program assignedCounter) := by with_unfolding_all rfl
  have hend : (Tree.program assignedCounter).run.run {} =
      (.ok none, ⟨Bindings.empty.define "_r0" (.integer 7), ⟨"7\n7\n", none⟩⟩) := rfl
  have hdraft : (((Tree.program assignedCounter).draft .statement).run {}).1 =
      .ok (.main assignedCounterCode) := rfl
  have hvariable : IsWord "_r0" := isWord_of_chars _ _ rfl rfl rfl
  have hwords : Code.AllStatements IsWord assignedCounterCode :=
    ⟨⟨hvariable, ⟨hvariable, trivial⟩, hvariable, trivial⟩, trivial⟩
  exact ⟨Script.run_of_parse hparse hend, hparse, Script.toC_of_draft hparse hdraft 4,
    outline_main hwords 4, by decide, by decide⟩

end CSource

end Scriptlet
