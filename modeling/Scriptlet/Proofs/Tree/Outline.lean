import Scriptlet.Proofs.Tree.Evaluation

/-!
A script as it stands in its text. The outline of a script lists, in the order of the text,
the names that are used, the assignments where they are complete, the heads of loops, and
the braces around blocks. Making the assignments of an outline means to run them one after
another, each once, whatever block they stand in.
-/
namespace Scriptlet

inductive Entry
  | uses (id : String) (pos : Position)
  /-- An assignment, listed after the names in its value. -/
  | assigns (id : String) (value : Tree) (pos : Position)
  /-- The head of a loop. The names in its bound are not listed apart. -/
  | repeats (bound : Tree) (pos : Position)
  | opens
  | closes

inductive Mention
  | uses (id : String) (pos : Position)
  | assigns (id : String)
deriving DecidableEq, Repr

namespace Mention

def ofReferences (rs : List (String × Position)) : List Mention :=
  rs.map fun r => .uses r.1 r.2

def used? : Mention → Option String
  | uses id _ => some id
  | _ => none

def assigned? : Mention → Option String
  | assigns id => some id
  | _ => none

def pos? : Mention → Option Position
  | uses _ p => some p
  | _ => none

@[simp] theorem filterMap_used_ofReferences (rs : List (String × Position)) :
    (ofReferences rs).filterMap used? = rs.map Prod.fst := by
  induction rs with
  | nil => rfl
  | cons r rs ih => exact congrArg (r.1 :: ·) ih

@[simp] theorem filterMap_assigned_ofReferences (rs : List (String × Position)) :
    (ofReferences rs).filterMap assigned? = [] := by
  induction rs with
  | nil => rfl
  | cons r rs ih => exact ih

@[simp] theorem uses_mem_ofReferences {rs : List (String × Position)} {id : String}
    {p : Position} : uses id p ∈ ofReferences rs ↔ (id, p) ∈ rs := by
  simp [ofReferences]

@[simp] theorem assigns_not_mem_ofReferences (rs : List (String × Position)) (id : String) :
    assigns id ∉ ofReferences rs := by
  simp [ofReferences]

end Mention

/-- The names an expression uses, with the places where it does. -/
def Tree.references : Tree → List (String × Position)
  | .name id _ p => [(id, p)]
  | .arith _ l r _ _ => l.references ++ r.references
  | .compare _ l r _ => l.references ++ r.references
  | .choose c y n _ => c.references ++ y.references ++ n.references
  | _ => []

/-- The references of an expression are to its names, in order. -/
theorem Tree.IsExpression.map_fst_references : {t : Tree} → t.IsExpression →
    t.references.map Prod.fst = t.names
  | .literal _ _ _, _ => rfl
  | .name _ _ _, _ => rfl
  | .arith _ _ _ _ _, h => by
    simp [references, map_fst_references h.1, map_fst_references h.2]
  | .compare _ _ _ _, h => by
    simp [references, map_fst_references h.1, map_fst_references h.2]
  | .choose _ _ _ _, h => by
    simp [references, map_fst_references h.1, map_fst_references h.2.1, map_fst_references h.2.2]

theorem Tree.IsExpression.contains_references {t : Tree} (h : t.IsExpression) {b : Bindings}
    (hbound : ∀ id ∈ t.names, b.contains id = true) :
    ∀ r ∈ t.references, b.contains r.1 = true := by
  intro r hr
  apply hbound
  rw [← h.map_fst_references]
  exact List.mem_map_of_mem hr

/-- A sum has a value only where all its names are bound. -/
theorem Tree.IsQuiet.contains_of_value? {b : Bindings} : {t : Tree} → t.IsQuiet → {x : Value} →
    t.value? b = some x → ∀ id ∈ t.names, b.contains id = true
  | .literal _ _ _, _, _, _ => by simp
  | .name _ _ _, _, _, hx => by
    simp_all [value?, Bindings.contains_eq_isSome]
  | .arith _ _ _ _ _, h, _, hx => by
    obtain ⟨_, hl, hr⟩ := Option.bind_eq_some_iff.mp hx
    obtain ⟨_, hr, _⟩ := Option.bind_eq_some_iff.mp hr
    intro id hid
    rcases (List.mem_append (s := names _)).mp hid with hid | hid
    · exact contains_of_value? h.1 hl id hid
    · exact contains_of_value? h.2.1 hr id hid

namespace Entry

def ofReferences (rs : List (String × Position)) : List Entry :=
  rs.map fun r => .uses r.1 r.2

def block (es : List Entry) : List Entry :=
  .opens :: (es ++ [.closes])

def depth : Entry → Int
  | opens => 1
  | closes => -1
  | _ => 0

def name? : Entry → Option String
  | uses id _ => some id
  | assigns id _ _ => some id
  | _ => none

def assignment? : Entry → Option Tree
  | assigns id v p => some (.assign id v p)
  | _ => none

def mentions : Entry → List Mention
  | uses id p => [.uses id p]
  | assigns id _ _ => [.assigns id]
  | repeats b _ => Mention.ofReferences b.references
  | _ => []

/-- The bindings after the entry, if its value can be computed. -/
def make? (b : Bindings) : Entry → Option Bindings
  | assigns id v _ => (v.value? b).map (b.define id)
  | _ => some b

def IsShaped : Entry → Prop
  | assigns _ v _ => v.IsValue
  | repeats b _ => b.IsQuiet
  | _ => True

end Entry

mutual

def Tree.outline : Tree → List Entry
  | .program body => Tree.outlineAll body
  | .assign id v p => Entry.ofReferences v.references ++ [.assigns id v p]
  | .branch c => c.outline
  | .loop b body p => .repeats b p :: Entry.block (Tree.outlineAll body)
  | t => Entry.ofReferences t.references

def Tree.outlineAll : List Tree → List Entry
  | [] => []
  | t :: ts => t.outline ++ Tree.outlineAll ts

/-- A last block without statements stands nowhere. -/
def Branch.outline : Branch → List Entry
  | .mk c body others last _ =>
    Entry.ofReferences c.references ++ (Entry.block (Tree.outlineAll body) ++
      (Branch.outlineAll others ++
        if last.isEmpty then [] else Entry.block (Tree.outlineAll last)))

def Branch.outlineAll : List Branch → List Entry
  | [] => []
  | c :: cs => c.outline ++ Branch.outlineAll cs

end

def assignments (es : List Entry) : List Tree :=
  es.filterMap Entry.assignment?

def mentions (es : List Entry) : List Mention :=
  es.flatMap Entry.mentions

/-- The bindings after all assignments of an outline, made one after another. -/
def make? : List Entry → Bindings → Option Bindings
  | [], b => some b
  | e :: es, b => (e.make? b).bind (make? es)

theorem make?_append (es fs : List Entry) (b : Bindings) :
    make? (es ++ fs) b = (make? es b).bind (make? fs) := by
  induction es generalizing b with
  | nil => rfl
  | cons e es ih =>
    simp only [List.cons_append, make?]
    cases e.make? b with
    | none => rfl
    | some b₁ => exact ih b₁

@[simp] theorem make?_ofReferences (rs : List (String × Position)) (b : Bindings) :
    make? (Entry.ofReferences rs) b = some b := by
  induction rs with
  | nil => rfl
  | cons r rs ih => exact ih

@[simp] theorem make?_block (es : List Entry) (b : Bindings) :
    make? (Entry.block es) b = make? es b := by
  change make? (es ++ [.closes]) b = make? es b
  rw [make?_append]
  cases make? es b <;> rfl

@[simp] theorem mentions_append (es fs : List Entry) :
    mentions (es ++ fs) = mentions es ++ mentions fs :=
  List.flatMap_append

@[simp] theorem mentions_cons (e : Entry) (es : List Entry) :
    mentions (e :: es) = e.mentions ++ mentions es := rfl

@[simp] theorem mentions_nil : mentions [] = [] := rfl

@[simp] theorem mentions_block (es : List Entry) : mentions (Entry.block es) = mentions es := by
  simp [Entry.block, Entry.mentions]

@[simp] theorem mentions_ofReferences (rs : List (String × Position)) :
    mentions (Entry.ofReferences rs) = Mention.ofReferences rs := by
  induction rs with
  | nil => rfl
  | cons r rs ih => exact congrArg (Mention.uses r.1 r.2 :: ·) ih

@[simp] theorem mentions_branch (c : Tree) (body : List Tree) (others : List Branch)
    (last : List Tree) (p : Position) :
    mentions (Branch.mk c body others last p).outline =
      Mention.ofReferences c.references ++ (mentions (Tree.outlineAll body) ++
        (mentions (Branch.outlineAll others) ++ mentions (Tree.outlineAll last))) := by
  cases last <;> simp [Branch.outline, Tree.outlineAll]

theorem mem_mentions_assigns {id : String} {es : List Entry} :
    Mention.assigns id ∈ mentions es ↔ ∃ v p, Entry.assigns id v p ∈ es := by
  simp only [mentions, List.mem_flatMap]
  constructor
  · rintro ⟨e, he, hid⟩
    cases e with
    | assigns x v p =>
      obtain rfl : id = x := by simpa [Entry.mentions] using hid
      exact ⟨v, p, he⟩
    | _ => simp [Entry.mentions] at hid
  · rintro ⟨v, p, he⟩
    exact ⟨_, he, by simp [Entry.mentions]⟩

/-- A name that is assigned is assigned a first time. -/
theorem exists_first_assignment {id : String} {es : List Entry} (h : .assigns id ∈ mentions es) :
    ∃ outer v p inner, es = outer ++ .assigns id v p :: inner ∧ .assigns id ∉ mentions outer := by
  induction es with
  | nil => simp at h
  | cons e es ih =>
    by_cases he : .assigns id ∈ e.mentions
    · obtain ⟨v, p, hmem⟩ : ∃ v p, Entry.assigns id v p ∈ [e] :=
        mem_mentions_assigns.mp (by simpa using he)
      obtain rfl := List.mem_singleton.mp hmem
      exact ⟨[], v, p, es, rfl, by simp⟩
    · obtain ⟨outer, v, p, inner, rfl, houter⟩ := ih (by simpa [he] using h)
      exact ⟨e :: outer, v, p, inner, rfl, by simp [he, houter]⟩

/-- One assignment binds its name and no other. -/
theorem Entry.contains_make? {e : Entry} {b b' : Bindings} (h : e.make? b = some b')
    (id : String) : b'.contains id = true ↔ b.contains id = true ∨ .assigns id ∈ e.mentions := by
  cases e with
  | assigns x v p =>
    obtain ⟨y, _, rfl⟩ := Option.map_eq_some_iff.mp h
    simp only [Bindings.contains_define, Bool.or_eq_true, beq_iff_eq, Entry.mentions,
      List.mem_singleton, Mention.assigns.injEq]
    grind
  | _ =>
    cases h
    simp [Entry.mentions]

/-- The assignments of an outline bind the names they are to and no other. -/
theorem contains_make? {es : List Entry} {b b' : Bindings} (h : make? es b = some b')
    (id : String) : b'.contains id = true ↔ b.contains id = true ∨ .assigns id ∈ mentions es := by
  induction es generalizing b with
  | nil =>
    cases h
    simp
  | cons e es ih =>
    obtain ⟨b₁, he, hes⟩ := Option.bind_eq_some_iff.mp h
    rw [ih hes, Entry.contains_make? he, mentions_cons, List.mem_append, or_assoc]

/-- Making the assignments of an outline is to run them as statements. -/
theorem gives_assignments {es : List Entry} (hes : ∀ e ∈ es, e.IsShaped) (m m' : Machine) :
    Gives (Tree.runAll (assignments es)) m () m' ↔
      ∃ b, make? es m.bindings = some b ∧ m' = { m with bindings := b } := by
  induction es generalizing m with
  | nil =>
    constructor
    · intro h
      obtain ⟨_, rfl⟩ := (gives_pure ..).mp h
      exact ⟨_, rfl, rfl⟩
    · rintro ⟨_, ⟨⟩, rfl⟩
      exact (gives_pure ..).mpr ⟨rfl, rfl⟩
  | cons e es ih =>
    have htail := ih fun e' he' => hes e' (List.mem_cons_of_mem _ he')
    cases e with
    | assigns id v p =>
      have hv : v.IsSilent := Tree.IsValue.isSilent (hes _ List.mem_cons_self)
      change Gives (Tree.runAll (.assign id v p :: assignments es)) m () m' ↔ _
      simp only [gives_runAll_cons, gives_run_assign hv, make?, Entry.make?, htail]
      cases v.value? m.bindings with
      | none => simp
      | some x =>
        simp only [Option.map_some, Option.bind_some, Option.some.injEq]
        constructor
        · rintro ⟨_, _, ⟨_, rfl, _, rfl⟩, b, hb, rfl⟩
          exact ⟨b, hb, rfl⟩
        · rintro ⟨b, hb, rfl⟩
          exact ⟨none, _, ⟨x, rfl, rfl, rfl⟩, b, hb, rfl⟩
    | _ => exact htail m

section Names

theorem Tree.IsExpression.filterMap_mentions {t : Tree} (h : t.IsExpression) :
    (mentions (Entry.ofReferences t.references)).filterMap Mention.used? = t.names ∧
      (mentions (Entry.ofReferences t.references)).filterMap Mention.assigned? = t.targets := by
  simp [h.map_fst_references, h.targets_eq_nil]

mutual

/-- An outline mentions the names that the tree uses and those it assigns to. -/
theorem Tree.IsStatement.filterMap_mentions : {t : Tree} → t.IsStatement →
    (mentions t.outline).filterMap Mention.used? = t.names ∧
      (mentions t.outline).filterMap Mention.assigned? = t.targets
  | .program _, h => False.elim h
  | .literal _ _ _, _ => ⟨rfl, rfl⟩
  | .name _ _ _, _ => ⟨rfl, rfl⟩
  | .arith op l r shown p, h =>
    Tree.IsExpression.filterMap_mentions
      (Tree.IsShownSum.isExpression (show (Tree.arith op l r shown p).IsShownSum from h))
  | .compare _ _ _ _, h => False.elim h
  | .choose _ _ _ _, h => False.elim h
  | .assign id v _, h => by
    have hexpr : v.IsExpression := Tree.IsValue.isExpression h
    simp [Tree.outline, hexpr.map_fst_references, hexpr.targets_eq_nil, Entry.mentions,
      Mention.used?, Mention.assigned?]
  | .branch _, h => Branch.IsChain.filterMap_mentions h
  | .loop b _ _, h => by
    have hexpr : b.IsExpression := h.1.isExpression
    simp [Tree.outline, hexpr.map_fst_references, hexpr.targets_eq_nil, Entry.mentions,
      Tree.AllStatements.filterMap_mentions h.2]

/-- The outline of statements mentions what they use and assign to. -/
theorem Tree.AllStatements.filterMap_mentions : {ts : List Tree} → Tree.AllStatements ts →
    (mentions (Tree.outlineAll ts)).filterMap Mention.used? = Tree.namesAll ts ∧
      (mentions (Tree.outlineAll ts)).filterMap Mention.assigned? = Tree.targetsAll ts
  | [], _ => ⟨rfl, rfl⟩
  | _ :: _, h => by
    simp [Tree.outlineAll, Tree.IsStatement.filterMap_mentions h.1,
      Tree.AllStatements.filterMap_mentions h.2]

theorem Branch.IsChain.filterMap_mentions : {c : Branch} → c.IsChain →
    (mentions c.outline).filterMap Mention.used? = c.names ∧
      (mentions c.outline).filterMap Mention.assigned? = c.targets
  | .mk c body others last _, h => by
    have hexpr : c.IsExpression := h.1.isExpression
    simp [hexpr.map_fst_references, hexpr.targets_eq_nil,
      Tree.AllStatements.filterMap_mentions h.2.1, Branch.AllElifs.filterMap_mentions h.2.2.1,
      Tree.AllStatements.filterMap_mentions h.2.2.2]

theorem Branch.AllElifs.filterMap_mentions : {cs : List Branch} → Branch.AllElifs cs →
    (mentions (Branch.outlineAll cs)).filterMap Mention.used? = Branch.namesAll cs ∧
      (mentions (Branch.outlineAll cs)).filterMap Mention.assigned? = Branch.targetsAll cs
  | [], _ => ⟨rfl, rfl⟩
  | .mk c body others last p :: cs, h => by
    obtain ⟨⟨hc, hbody, rfl, rfl⟩, hcs⟩ := h
    have hexpr : c.IsExpression := hc.isExpression
    simp [Branch.outlineAll, Tree.outlineAll, hexpr.map_fst_references, hexpr.targets_eq_nil,
      Tree.AllStatements.filterMap_mentions hbody, Branch.AllElifs.filterMap_mentions hcs]

end

/-- The targets of statements are those their outline assigns to. -/
theorem Tree.AllStatements.mem_targetsAll_iff {ts : List Tree} (h : Tree.AllStatements ts)
    {id : String} : id ∈ Tree.targetsAll ts ↔ .assigns id ∈ mentions (Tree.outlineAll ts) := by
  rw [← h.filterMap_mentions.2, List.mem_filterMap]
  constructor
  · rintro ⟨x, hx, hid⟩
    cases x with
    | assigns y =>
      cases hid
      exact hx
    | uses y p => cases hid
  · exact fun hmem => ⟨_, hmem, rfl⟩

/-- The names of statements are those their outline uses. -/
theorem Tree.AllStatements.mem_namesAll_iff {ts : List Tree} (h : Tree.AllStatements ts)
    {id : String} : id ∈ Tree.namesAll ts ↔ ∃ p, .uses id p ∈ mentions (Tree.outlineAll ts) := by
  rw [← h.filterMap_mentions.1, List.mem_filterMap]
  constructor
  · rintro ⟨x, hx, hid⟩
    cases x with
    | assigns y => cases hid
    | uses y p =>
      cases hid
      exact ⟨p, hx⟩
  · rintro ⟨p, hmem⟩
    exact ⟨_, hmem, rfl⟩

end Names

section Shapes

theorem isShaped_ofReferences {rs : List (String × Position)} :
    ∀ e ∈ Entry.ofReferences rs, e.IsShaped := by
  intro e he
  obtain ⟨r, _, rfl⟩ := List.mem_map.mp he
  trivial

theorem isShaped_block {es : List Entry} (h : ∀ e ∈ es, e.IsShaped) :
    ∀ e ∈ Entry.block es, e.IsShaped := by
  intro e he
  simp only [Entry.block, List.mem_cons, List.mem_append, List.not_mem_nil, or_false] at he
  rcases he with rfl | he | rfl
  · trivial
  · exact h e he
  · trivial

theorem Tree.IsShownSum.outline_eq {t : Tree} (h : t.IsShownSum) :
    t.outline = Entry.ofReferences t.references := by
  cases t with
  | literal _ _ _ => rfl
  | name _ _ _ => rfl
  | arith _ _ _ _ _ => rfl
  | _ => exact h.elim

mutual

/-- In the outline of a statement values are assigned and bounds are quiet. -/
theorem Tree.IsStatement.isShaped : {t : Tree} → t.IsStatement → ∀ e ∈ t.outline, e.IsShaped
  | .program _, h => False.elim h
  | .literal _ _ _, _ => isShaped_ofReferences
  | .name _ _ _, _ => isShaped_ofReferences
  | .arith _ _ _ _ _, _ => isShaped_ofReferences
  | .compare _ _ _ _, h => False.elim h
  | .choose _ _ _ _, h => False.elim h
  | .assign _ _ _, h => by
    intro e he
    rcases List.mem_append.mp he with he | he
    · exact isShaped_ofReferences e he
    · obtain rfl := List.mem_singleton.mp he
      exact h
  | .branch c, h => Branch.IsChain.isShaped h
  | .loop _ _ _, h => by
    intro e he
    rcases List.mem_cons.mp he with rfl | he
    · exact h.1
    · exact isShaped_block (Tree.AllStatements.isShaped h.2) e he

theorem Tree.AllStatements.isShaped : {ts : List Tree} → Tree.AllStatements ts →
    ∀ e ∈ Tree.outlineAll ts, e.IsShaped
  | [], _ => by simp [Tree.outlineAll]
  | _ :: _, h => by
    intro e he
    rcases List.mem_append.mp he with he | he
    · exact Tree.IsStatement.isShaped h.1 e he
    · exact Tree.AllStatements.isShaped h.2 e he

theorem Branch.IsChain.isShaped : {c : Branch} → c.IsChain → ∀ e ∈ c.outline, e.IsShaped
  | .mk _ _ _ last _, h => by
    intro e he
    simp only [Branch.outline, List.mem_append] at he
    rcases he with he | he | he | he
    · exact isShaped_ofReferences e he
    · exact isShaped_block (Tree.AllStatements.isShaped h.2.1) e he
    · exact Branch.AllElifs.isShaped h.2.2.1 e he
    · cases last with
      | nil => simp at he
      | cons t ts => exact isShaped_block (Tree.AllStatements.isShaped h.2.2.2) e he

theorem Branch.AllElifs.isShaped : {cs : List Branch} → Branch.AllElifs cs →
    ∀ e ∈ Branch.outlineAll cs, e.IsShaped
  | [], _ => by simp [Branch.outlineAll]
  | .mk _ _ _ _ _ :: _, h => by
    obtain ⟨⟨_, hbody, rfl, rfl⟩, hcs⟩ := h
    intro e he
    simp only [Branch.outlineAll, Branch.outline, List.mem_append] at he
    rcases he with (he | he | he | he) | he
    · exact isShaped_ofReferences e he
    · exact isShaped_block (Tree.AllStatements.isShaped hbody) e he
    · simp at he
    · simp at he
    · exact Branch.AllElifs.isShaped hcs e he

end

end Shapes

end Scriptlet
